import RefScan.Candidate
import RefScan.Exclusion
import RefScan.Graph
import RefScan.Scan.Asking
import RefScan.Scan.Options
import Std.Data.ExtTreeMap
import Std.Data.ExtTreeSet

/-!
# The walk of a scan

A walk expands pending types one at a time. To expand a type is to load its bytes, to resolve the
candidates in them, to drop the type itself and what the exclusion rejects, and to note the rest
as references. A walk remembers every answer it got, so it never asks twice, and it keeps a record
of its questions. The walk itself only asks; `Walk.step` is one expansion with the answers of a
source and an exclusion, and `Walk.finished` the walk when there is nothing left to expand.
-/

namespace RefScan

structure ScanRequest where
  source : Source
  root : TypeName
  options : ScanOptions := {}
  exclusion : Option Exclusion := none
  /-- Whether a graph of the references is kept. -/
  recorded : Bool := false

def Source.answers (s : Source) (exclusion : Option Exclusion) : (r : Request) → r.Answer
  | .load t => s.load t
  | .resolve name => s.resolve name
  | .exclude earlier t => exclusion.any (· earlier t)

def ScanRequest.answers (q : ScanRequest) : (r : Request) → r.Answer := q.source.answers q.exclusion

structure Walk where
  /-- Types to expand with their distance from the root, the next one first. -/
  pending : List (TypeName × Nat)
  /-- Types that have been pending, or would have been but for the depth limit. -/
  visited : Std.ExtTreeSet TypeName
  found : Std.ExtTreeSet TypeName := ∅
  /-- What each candidate resolved to. -/
  resolved : Std.ExtTreeMap String (Option TypeName) := ∅
  /-- The exclusion's verdict on each type it was asked about. -/
  verdicts : Std.ExtTreeMap TypeName Bool := ∅
  stats : ScanStats := {}
  graph : Option Graph := none
  /-- Types whose bytes were asked for, latest first. -/
  loads : List TypeName := []
  /-- Names that were to be resolved, latest first. -/
  resolutions : List String := []
  /-- Types that the exclusion was asked about, latest first. -/
  questions : List TypeName := []
  failure : Option ScanError := none

namespace Walk

def start (q : ScanRequest) : Walk where
  pending := [(q.root, 0)]
  visited := .ofList [q.root]
  graph := if q.recorded then some .empty else none

instance : Inhabited Walk := ⟨{ pending := [], visited := ∅ }⟩

-- ---------------------------------------------------------------------------
-- Questions
-- ---------------------------------------------------------------------------

def told (name : String) (answer : Except ResolveError TypeName) (w : Walk) : Walk :=
  { w with
    resolutions := name :: w.resolutions
    resolved := w.resolved.insert name answer.toOption
    stats := { w.stats with unresolved := w.stats.unresolved + (!answer.isOk).toNat } }

def askResolve (w : Walk) (name : String) : Asking (Option TypeName × Walk) :=
  match w.resolved[name]? with
  | some answer => pure (answer, w)
  | none => .ask (.resolve name) fun answer => pure (answer.toOption, w.told name answer)

def judged (t : TypeName) (verdict : Bool) (w : Walk) : Walk :=
  { w with
    questions := t :: w.questions
    verdicts := w.verdicts.insert t verdict
    stats := { w.stats with excluded := w.stats.excluded + verdict.toNat } }

/-- The verdict on a type. Without an exclusion nothing is excluded and nobody is asked. -/
def askExcludes (q : ScanRequest) (w : Walk) (t : TypeName) : Asking (Bool × Walk) :=
  match w.verdicts[t]? with
  | some verdict => pure (verdict, w)
  | none =>
    if q.exclusion.isNone then pure (false, { w with verdicts := w.verdicts.insert t false })
    else .ask (.exclude w.questions t) fun verdict => pure (verdict, w.judged t verdict)

def counted (w : Walk) : Walk :=
  { w with stats := { w.stats with candidates := w.stats.candidates + 1 } }

/-- A candidate of `unit` as a reference, unless it names nothing, `unit` or an excluded type. -/
def askExamine (q : ScanRequest) (unit : TypeName) (w : Walk) (name : String) :
    Asking (Option TypeName × Walk) := do
  match ← w.counted.askResolve name with
  | (none, w) => pure (none, w)
  | (some t, w) =>
    if t = unit then pure (none, w)
    else
      let (excluded, w) ← w.askExcludes q t
      pure (if excluded then none else some t, w)

def askAccept (q : ScanRequest) (unit : TypeName) :
    Walk → List String → Asking (List TypeName × Walk)
  | w, [] => pure ([], w)
  | w, name :: names => do
    let (t?, w) ← w.askExamine q unit name
    let (ts, w) ← askAccept q unit w names
    pure (t?.toList ++ ts, w)

-- ---------------------------------------------------------------------------
-- Steps
-- ---------------------------------------------------------------------------

/-- Notes a reference from `unit`, which is `depth` references away from the root. The target
comes back if it is to be expanded. -/
def note (q : ScanRequest) (unit : TypeName) (depth : Nat) (w : Walk) (t : TypeName) :
    Option (TypeName × Nat) × Walk :=
  let w := { w with graph := w.graph.map (·.addReference unit t) }
  if t = q.root then (none, w)
  else if !q.options.recursive then (none, { w with found := w.found.insert t })
  else if t ∈ w.visited then (none, w)
  else
    (if q.options.expandsAt (depth + 1) then some (t, depth + 1) else none,
      { w with visited := w.visited.insert t, found := w.found.insert t })

def noteAll (q : ScanRequest) (unit : TypeName) (depth : Nat) :
    Walk → List TypeName → List (TypeName × Nat) × Walk
  | w, [] => ([], w)
  | w, t :: ts =>
    let (p?, w) := w.note q unit depth t
    let (ps, w) := noteAll q unit depth w ts
    (p?.toList ++ ps, w)

def enqueue (q : ScanRequest) (next rest : List (TypeName × Nat)) : List (TypeName × Nat) :=
  if q.options.byLevel then rest ++ next else next ++ rest

def marked (unit : TypeName) (w : Walk) : Walk :=
  { w with
    stats := { w.stats with expanded := w.stats.expanded + 1 }
    graph := w.graph.map (·.markExpanded unit) }

def askExpand (q : ScanRequest) (unit : TypeName) (depth : Nat) (bytes : Bytes) (w : Walk) :
    Asking Walk := do
  let names := (Candidates.ofBytes q.options.encoding bytes).toList
  let (ts, w) ← askAccept q unit (w.marked unit) names
  let (next, w) := noteAll q unit depth w ts
  pure { w with pending := enqueue q next w.pending }

/-- A type without bytes ends the walk if it is the root, and else only its own branch. -/
def abandon (q : ScanRequest) (unit : TypeName) (cause : LoadError) (w : Walk) : Walk :=
  if unit = q.root then { w with pending := [], failure := some (.load unit.name cause) }
  else { w with stats := { w.stats with abandoned := w.stats.abandoned + 1 } }

def opened (unit : TypeName) (rest : List (TypeName × Nat)) (w : Walk) : Walk :=
  { w with pending := rest, loads := unit :: w.loads }

def askStep (q : ScanRequest) (w : Walk) : Asking Walk :=
  match w.pending with
  | [] => pure w
  | (unit, depth) :: rest => .ask (.load unit) fun
    | .ok bytes => (w.opened unit rest).askExpand q unit depth bytes
    | .error cause => pure ((w.opened unit rest).abandon q unit cause)

def step (q : ScanRequest) (w : Walk) : Walk := (w.askStep q).eval q.answers

def run (q : ScanRequest) : Nat → Walk → Walk
  | 0, w => w
  | n + 1, w => run q n (w.step q)

/-- Expands until nothing is pending. Nothing is said of a walk that goes on for ever, as it may
over a source that resolves to ever new types. -/
def finish (q : ScanRequest) (w : Walk) : Walk :=
  match w.pending with
  | [] => w
  | _ :: _ => w.step q |>.finish q
partial_fixpoint

def finished (q : ScanRequest) : Walk := finish q (start q)

end Walk

end RefScan
