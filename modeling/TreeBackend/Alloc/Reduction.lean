import TreeBackend.Alloc.Interference

/-!
# Taking an interference graph apart

Colouring first removes the nodes of the graph one at a time, and remembers in
what order. As long as there is a node with fewer neighbours than registers and
without move edges it is **simplified** away: it will find a colour whatever
its neighbours get. Otherwise two nodes related by a move are **coalesced** if
together they have fewer neighbours than registers. Otherwise one move edge is
**frozen** – the wish is given up, and the two nodes count as interfering from
then on. When no move edges are left, the node with the most neighbours is
removed as a **spill** candidate.

Among equals the node with the lowest number comes first.
-/

namespace TreeBackend

/-- How a node left the graph. -/
inductive Removal where
  /-- It had fewer neighbours than there are registers. -/
  | simplified (node : Nat)
  /-- It was given up. -/
  | spill (node : Nat)
  /-- It was made one with a node that stayed. -/
  | merged (keep absorbed : Nat)
  deriving DecidableEq, Repr

/-- A graph that is being taken apart. -/
structure Reduction where
  /-- How many colours there are. -/
  registers : Nat
  /-- The nodes that are coloured from the start and never removed. -/
  precolored : Array Bool
  /-- The nodes that are given up only when there are no others. -/
  avoid : Array Bool
  /-- Which nodes interfere, removed ones included. -/
  adjacent : Array IndexSet
  /-- Which nodes are still related by a move. -/
  moves : Array IndexSet
  /-- The nodes that left the graph. -/
  removed : Array Bool
  /-- How they left it, the latest first. -/
  stack : List Removal := []

namespace Reduction

/-- The interference graph before anything is removed. -/
def new (g : Interference) (registers : Nat) (avoid : TempSet) : Reduction where
  registers
  precolored := g.nodes.map (·.precolored)
  avoid := g.nodes.map fun n => avoid.contains n.temp
  adjacent := g.nodes.map (·.adjacent)
  moves := g.nodes.map (·.moves)
  removed := Array.replicate g.nodes.size false

/-- What the node interferes with. -/
def neighbours (r : Reduction) (n : Nat) : IndexSet := r.adjacent.getD n ∅

/-- What the node is related to by a move. -/
def related (r : Reduction) (n : Nat) : IndexSet := r.moves.getD n ∅

/-- Whether the node left the graph. -/
def isRemoved (r : Reduction) (n : Nat) : Bool := r.removed.getD n false

/-- Whether the node is coloured from the start. -/
def isPrecolored (r : Reduction) (n : Nat) : Bool := r.precolored.getD n false

/-- How many nodes still in the graph belong to a set. -/
def remaining (r : Reduction) (nodes : IndexSet) : Nat :=
  nodes.toList.countP fun m => !r.isRemoved m

/-- The **degree** of a node: how many nodes still in the graph it interferes
with. -/
def degree (r : Reduction) (n : Nat) : Nat := r.remaining (r.neighbours n)

/-- The nodes that are still to be removed, in ascending order. -/
def active (r : Reduction) : List Nat :=
  (List.range r.adjacent.size).filter fun n => !r.isRemoved n && !r.isPrecolored n

/-- Remove a node and remember how. -/
def remove (r : Reduction) (n : Nat) (how : Removal) : Reduction :=
  { r with removed := r.removed.setIfInBounds n true, stack := how :: r.stack }

/-- Remove the first node that is sure to find a colour. -/
def simplify? (r : Reduction) : Option Reduction :=
  (r.active.find? fun n => (r.related n).isEmpty && r.degree n < r.registers).map fun n =>
    r.remove n (.simplified n)

/-- Let every edge of `absorbed` become an edge of `keep`. -/
def redirect (edges : Array IndexSet) (keep absorbed : Nat) : Array IndexSet :=
  let moved := edges.getD absorbed ∅
  edges.mapIdx fun n set =>
    if n = absorbed then ∅
    else if n = keep then ((set ∪ moved).erase absorbed).erase keep
    else if set.contains absorbed then (set.erase absorbed).insert keep
    else set

/-- Take out the edges between `n` and the nodes of a set. -/
def disconnect (edges : Array IndexSet) (n : Nat) (others : IndexSet) : Array IndexSet :=
  edges.mapIdx fun m set =>
    if m = n then set \ others
    else if others.contains m then set.erase n
    else set

/-- Make `absorbed` one with `keep`. A move edge between nodes that interfere
from now on is given up. -/
def merge (r : Reduction) (keep absorbed : Nat) : Reduction :=
  let adjacent := redirect r.adjacent keep absorbed
  let moves := redirect r.moves keep absorbed
  { r with adjacent, moves := disconnect moves keep (adjacent.getD keep ∅) }.remove absorbed
    (.merged keep absorbed)

/-- Whether `a` and `b`, related by a move, may be made one: together they have
fewer neighbours than there are registers. -/
def mayMerge (r : Reduction) (a b : Nat) : Bool :=
  !r.isRemoved b && !r.isPrecolored b && !(r.neighbours a).contains b
    && r.remaining (r.neighbours a ∪ r.neighbours b) < r.registers

/-- Make the first two nodes one that may be made one; the lower number stays. -/
def coalesce? (r : Reduction) : Option Reduction :=
  (r.active.findSome? fun a =>
    ((r.related a).toList.find? (r.mayMerge a)).map fun b => (min a b, max a b)).map fun pair =>
      r.merge pair.1 pair.2

/-- Add an edge between two nodes. -/
def connect (edges : Array IndexSet) (n m : Nat) : Array IndexSet :=
  (edges.modify n (·.insert m)).modify m (·.insert n)

/-- Give up the first move edge of the first node that has a single one, or
else of a node that has the fewest. -/
def freeze? (r : Reduction) : Option Reduction :=
  let related := r.active.filter fun n => !(r.related n).isEmpty
  let candidate := related.find? (fun n => (r.related n).size = 1)
    <|> related.minOn? fun n => (r.related n).size
  candidate.bind fun n => (r.related n).toList.head?.map fun m =>
    { r with
      moves := (r.moves.modify n (·.erase m)).modify m (·.erase n)
      adjacent := connect r.adjacent n m }

/-- Give up the node with the most neighbours; one of the nodes to avoid only
when there are no others. -/
def spill? (r : Reduction) : Option Reduction :=
  let wanted := r.active.filter fun n => !r.avoid.getD n false
  let candidates := if wanted.isEmpty then r.active else wanted
  (candidates.maxOn? r.degree).map fun n => r.remove n (.spill n)

/-- One step of taking the graph apart. -/
def step? (r : Reduction) : Option Reduction :=
  r.simplify? <|> r.coalesce? <|> r.freeze? <|> r.spill?

/-- Take steps until none is left, at most `fuel` of them. -/
def run : Nat → Reduction → Reduction
  | 0, r => r
  | fuel + 1, r =>
    match r.step? with
    | some r => run fuel r
    | none => r

/-- An upper bound on the number of steps: each removes a node or a move edge. -/
def stepBound (r : Reduction) : Nat :=
  r.adjacent.size + (r.moves.map fun set => set.size).foldr (· + ·) 0

/-- Take the graph apart to the end. -/
def exhaust (r : Reduction) : Reduction := r.run r.stepBound

end Reduction

end TreeBackend
