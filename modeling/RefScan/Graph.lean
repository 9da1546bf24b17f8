import RefScan.TypeName
import Std.Data.ExtTreeMap
import Std.Data.ExtTreeSet

/-!
# Reference graphs

A graph numbers its types in the order in which they were first mentioned. A node holds a type and
whether its references were collected, a link holds the numbers of the two nodes at its ends, and an
index gives the number of each type. A link is kept once however often it is added; every listing is
in name order.
-/

namespace RefScan

structure Reference where
  source : TypeName
  target : TypeName
deriving DecidableEq, Repr

namespace Reference

instance : Ord Reference :=
  ⟨compareLex (compareOn Reference.source) (compareOn Reference.target)⟩

instance : Std.TransOrd Reference :=
  inferInstanceAs (Std.TransCmp
    (compareLex (compareOn Reference.source) (compareOn Reference.target)))

instance : Std.LawfulEqOrd Reference where
  eq_of_compare {a b} h := by
    obtain ⟨s, t⟩ := a
    obtain ⟨s', t'⟩ := b
    have h : (compare s s').then (compare t t') = .eq := h
    rw [Ordering.then_eq_eq] at h
    rw [Std.LawfulEqOrd.eq_of_compare h.1, Std.LawfulEqOrd.eq_of_compare h.2]

end Reference

structure Node where
  type : TypeName
  expanded : Bool := false
deriving DecidableEq, Repr

structure Graph where
  nodes : Array Node := #[]
  links : Array (Nat × Nat) := #[]
  index : Std.ExtTreeMap TypeName Nat := ∅

structure GraphStats where
  types : Nat
  expanded : Nat
  references : Nat
deriving DecidableEq, Repr

def inOrder [Ord α] (l : List α) : List α := l.mergeSort fun a b => (compare a b).isLE

namespace Graph

def empty : Graph := {}

def contains (g : Graph) (t : TypeName) : Bool := g.index.contains t

-- ---------------------------------------------------------------------------
-- Operations
-- ---------------------------------------------------------------------------

/-- The number of a type, which gets a node if it has none. -/
def enter (g : Graph) (t : TypeName) : Nat × Graph :=
  match g.index[t]? with
  | some i => (i, g)
  | none =>
    (g.nodes.size, { g with
      nodes := g.nodes.push { type := t }
      index := g.index.insert t g.nodes.size })

def link (g : Graph) (i j : Nat) : Graph :=
  if (i, j) ∈ g.links then g else { g with links := g.links.push (i, j) }

def flag (g : Graph) (i : Nat) : Graph :=
  { g with nodes := g.nodes.modify i ({ · with expanded := true }) }

def addType (g : Graph) (t : TypeName) : Graph := (g.enter t).2

/-- The number a type has, or will have once it is added. -/
def position (g : Graph) (t : TypeName) : Nat := (g.enter t).1

def addReference (g : Graph) (source target : TypeName) : Graph :=
  let (i, g) := g.enter source
  let (j, g) := g.enter target
  g.link i j

def markExpanded (g : Graph) (t : TypeName) : Graph :=
  let (i, g) := g.enter t
  g.flag i

-- ---------------------------------------------------------------------------
-- Queries
-- ---------------------------------------------------------------------------

def typeAt? (g : Graph) (i : Nat) : Option TypeName := g.nodes[i]?.map Node.type

def referenceAt? (g : Graph) (ends : Nat × Nat) : Option Reference :=
  match g.typeAt? ends.1, g.typeAt? ends.2 with
  | some source, some target => some ⟨source, target⟩
  | _, _ => none

def typeNames (g : Graph) : List TypeName := g.index.keys

def edges (g : Graph) : List Reference := inOrder (g.links.toList.filterMap g.referenceAt?)

def targets (g : Graph) (i : Nat) : List Nat := (g.links.toList.filter (·.1 = i)).map (·.2)

def sources (g : Graph) (i : Nat) : List Nat := (g.links.toList.filter (·.2 = i)).map (·.1)

def neighbors (g : Graph) (others : Nat → List Nat) (t : TypeName) : List TypeName :=
  match g.index[t]? with
  | none => []
  | some i => (inOrder ((others i).filterMap g.typeAt?)).eraseReps

def referencesOf (g : Graph) (t : TypeName) : List TypeName := g.neighbors g.targets t

def referencedBy (g : Graph) (t : TypeName) : List TypeName := g.neighbors g.sources t

def stats (g : Graph) : GraphStats := ⟨g.nodes.size, g.nodes.countP (·.expanded), g.links.size⟩

structure Search where
  /-- Nodes to look at, the next one first. -/
  queue : List Nat
  visited : Std.ExtTreeSet Nat
  /-- Nodes met on the way, latest first. -/
  reached : List Nat := []

namespace Search

def start (i : Nat) : Search := { queue := [i], visited := .ofList [i] }

/-- Only the first time that a node is met counts. -/
def meet (s : Search) (i : Nat) : Search :=
  if i ∈ s.visited then s
  else
    { queue := s.queue ++ [i]
      visited := s.visited.insert i
      reached := i :: s.reached }

def step (g : Graph) (s : Search) : Search :=
  match s.queue with
  | [] => s
  | i :: rest => (g.targets i).foldl meet { s with queue := rest }

def run (g : Graph) : Nat → Search → Search
  | 0, s => s
  | n + 1, s => run g n (s.step g)

end Search

/-- What can be reached from `t` over one or more references, `t` itself apart. No node is in the
queue twice, so as many steps as there are nodes drain it. -/
def closure (g : Graph) (t : TypeName) : List TypeName :=
  match g.index[t]? with
  | none => []
  | some i => inOrder ((Search.run g g.nodes.size (.start i)).reached.filterMap g.typeAt?)

end Graph

end RefScan
