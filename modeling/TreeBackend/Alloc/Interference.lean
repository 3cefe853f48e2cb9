import TreeBackend.Code.Liveness

/-!
# Interference graphs

Two temps **interfere** when one is written while the other is live: they
cannot share a register. A copy is the exception, for its source and its
destination hold the same value; such a pair is joined by a *move edge*
instead, a wish that the two get one register. Interference wins over a move
edge between the same temps.

Nodes stand in the order in which the code first mentions their temps. The
frame pointer has no node. A temp that is pinned to a register the allocator
may use is coloured from the start.
-/

namespace TreeBackend

/-- A finite set of node numbers, with extensional equality. -/
abbrev IndexSet := Std.ExtTreeSet Nat

/-- What colouring has decided about a node. -/
inductive NodeColor where
  /-- Nothing yet. -/
  | unset
  /-- Given up for lack of colours, but it may still find one. -/
  | toSpill
  /-- There was no colour for it. -/
  | spilled
  /-- Its colour. -/
  | color (c : Nat)
  deriving DecidableEq, Repr

/-- A temp of the code and what it must and would rather share. -/
structure InterferenceNode where
  temp : Temp
  /-- The nodes it interferes with. -/
  adjacent : IndexSet := ∅
  /-- The nodes it is copied from or to. -/
  moves : IndexSet := ∅
  color : NodeColor
  /-- Whether its colour is fixed from the start. -/
  precolored : Bool

/-- The interference graph of code. -/
structure Interference where
  nodes : Array InterferenceNode := #[]

namespace Interference

/-- The number of a temp's node. -/
def index? (g : Interference) (t : Temp) : Option Nat := g.nodes.findIdx? fun n => n.temp = t

/-- The node of a temp. -/
def node? (g : Interference) (t : Temp) : Option InterferenceNode :=
  (g.index? t).bind fun i => g.nodes[i]?

/-- What the node at `i` interferes with. -/
def adjacent (g : Interference) (i : Nat) : IndexSet :=
  match g.nodes[i]? with
  | some n => n.adjacent
  | none => ∅

/-- What the node at `i` is copied from or to. -/
def moves (g : Interference) (i : Nat) : IndexSet :=
  match g.nodes[i]? with
  | some n => n.moves
  | none => ∅

/-- Whether the node at `i` is coloured from the start. -/
def precolored (g : Interference) (i : Nat) : Bool :=
  match g.nodes[i]? with
  | some n => n.precolored
  | none => false

/-- A node for a temp, coloured if it is pinned to one of the first `registers`
registers. -/
def newNode (registers : Nat) (t : Temp) : InterferenceNode :=
  match (t.pinned?.map Register.color).filter (· < registers) with
  | some c => { temp := t, color := .color c, precolored := true }
  | none => { temp := t, color := .unset, precolored := false }

/-- Make sure that a temp has a node, unless it is the frame pointer. -/
def ensure (registers : Nat) (g : Interference) (t : Temp) : Interference :=
  if t.isFramePointer || (g.index? t).isSome then g
  else { g with nodes := g.nodes.push (newNode registers t) }

/-- Let the node at `i` interfere with the node at `j`, one way. -/
def attach (g : Interference) (i j : Nat) : Interference :=
  { g with nodes := g.nodes.modify i fun n =>
      { n with adjacent := n.adjacent.insert j, moves := n.moves.erase j } }

/-- Let two temps interfere. A temp without a node, or twice the same one,
changes nothing. -/
def addEdge (g : Interference) (a b : Temp) : Interference :=
  match g.index? a, g.index? b with
  | some i, some j => if i = j then g else (g.attach i j).attach j i
  | _, _ => g

/-- Relate the node at `i` by a move to the node at `j`, one way. -/
def attachMove (g : Interference) (i j : Nat) : Interference :=
  { g with nodes := g.nodes.modify i fun n => { n with moves := n.moves.insert j } }

/-- Relate two temps by a move, unless they interfere or one of them has its
colour fixed. -/
def addMove (g : Interference) (a b : Temp) : Interference :=
  match g.index? a, g.index? b with
  | some i, some j =>
    if i = j || g.precolored i || g.precolored j || (g.adjacent i).contains j then g
    else (g.attachMove i j).attachMove j i
  | _, _ => g

/-- Let the temps written by one instruction interfere with what is live after
it, and with one another. -/
def addDefs (out : TempSet) : Interference → List Temp → Interference
  | g, [] => g
  | g, d :: rest => addDefs out ((out.toList ++ rest).foldl (fun g t => g.addEdge d t) g) rest

/-- Add the edges that an instruction gives rise to, `out` being live after it. -/
def addInstruction (g : Interference) (i : Instruction) (out : TempSet) : Interference :=
  match i.isCopy, i.defs, i.uses with
  | true, dst :: _, src :: _ =>
    ((out.toList.filter (· ≠ src)).foldl (fun g t => g.addEdge dst t) g).addMove dst src
  | _, _, _ => g.addDefs out i.defs

/-- The **interference graph** of code under its live sets. Code and live sets
are read side by side, up to the shorter of the two. -/
def build (code : List Instruction) (live : Liveness) (registers : Nat) : Interference :=
  let temps := code.flatMap fun i => i.uses ++ i.defs
  (code.zip live.liveOut.toList).foldl (fun g entry => g.addInstruction entry.1 entry.2)
    (temps.foldl (ensure registers) {})

/-- Whether two temps interfere. -/
def interferes (g : Interference) (a b : Temp) : Bool :=
  match g.index? a, g.index? b with
  | some i, some j => (g.adjacent i).contains j
  | _, _ => false

/-- Whether two temps are related by a move. -/
def moveRelated (g : Interference) (a b : Temp) : Bool :=
  match g.index? a, g.index? b with
  | some i, some j => (g.moves i).contains j
  | _, _ => false

/-- The pairs of a symmetric relation, smaller number first. -/
def pairs (related : List IndexSet) : List (Nat × Nat) :=
  related.zipIdx.flatMap fun entry =>
    (entry.1.toList.filter (entry.2 < ·)).map fun j => (entry.2, j)

/-- The pairs of nodes that interfere. -/
def edges (g : Interference) : List (Nat × Nat) := pairs (g.nodes.toList.map (·.adjacent))

/-- The pairs of nodes related by a move. -/
def moveEdges (g : Interference) : List (Nat × Nat) := pairs (g.nodes.toList.map (·.moves))

end Interference

end TreeBackend
