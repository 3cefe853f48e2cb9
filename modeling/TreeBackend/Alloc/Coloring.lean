import TreeBackend.Alloc.Reduction
import TreeBackend.Machine.ColorSet

/-!
# Colouring interference graphs

A graph that was taken apart is put together again in the opposite order. A
node that comes back takes the lowest colour that none of its neighbours has;
if there is none it is spilled. A node that was made one with another takes
that node's colour.
-/

namespace TreeBackend

/-- The outcome of colouring a graph. -/
structure Coloring where
  /-- The colours of the temps that have one. -/
  colors : TempMap Nat := ∅
  /-- The temps without a colour, in the order of their nodes. -/
  spilled : List Temp := []
  /-- The temps that were made one, the one that stayed first. -/
  merges : List (Temp × Temp) := []

namespace Coloring

/-- The colours of the neighbours of a node that have one. -/
def taken (colors : Array NodeColor) (neighbours : IndexSet) : ColorSet :=
  neighbours.toList.foldl (fun taken m =>
    match colors.getD m .unset with
    | .color c => taken.insert c
    | _ => taken) ColorSet.empty

/-- The colour of a node that comes back among its neighbours. -/
def choose (registers : Nat) (colors : Array NodeColor) (neighbours : IndexSet) : NodeColor :=
  match (ColorSet.first registers).lowestExcluding (taken colors neighbours) with
  | some c => .color c
  | none => .spilled

/-- Put the node of one removal back. -/
def restore (r : Reduction) (colors : Array NodeColor) : Removal → Array NodeColor
  | .simplified n | .spill n =>
    colors.setIfInBounds n (choose r.registers colors (r.neighbours n))
  | .merged keep absorbed => colors.setIfInBounds absorbed (colors.getD keep .unset)

/-- Mark the nodes that were given up: a colour they had before is void. -/
def markSpills (stack : List Removal) (colors : Array NodeColor) : Array NodeColor :=
  stack.foldl (fun colors how =>
    match how with
    | .spill n => colors.setIfInBounds n .toSpill
    | _ => colors) colors

/-- The colours of all nodes after every removed node was put back, starting
from the colours the graph had. -/
def select (r : Reduction) (colors : Array NodeColor) : Array NodeColor :=
  r.stack.foldl (restore r) (markSpills r.stack colors)

/-- The temps that were made one, in the order in which that happened. -/
def mergedTemps (g : Interference) (r : Reduction) : List (Temp × Temp) :=
  r.stack.reverse.filterMap fun how =>
    match how with
    | .merged keep absorbed =>
      match g.nodes[keep]?, g.nodes[absorbed]? with
      | some k, some a => some (k.temp, a.temp)
      | _, _ => none
    | _ => none

/-- What the colours of a graph's nodes say about its temps. -/
def ofGraph (g : Interference) (merges : List (Temp × Temp)) : Coloring where
  colors := g.nodes.foldl (fun colors n =>
    match n.color with
    | .color c => colors.insert n.temp c
    | _ => colors) ∅
  spilled := (g.nodes.toList.filter fun n =>
    match n.color with
    | .color _ => false
    | _ => true).map (·.temp)
  merges

end Coloring

/-- **Colour** the graph with the first `registers` colours. Temps of `avoid`
are given up only when there are no others. The nodes keep their colours, and a
graph that is coloured again starts from them. -/
def Interference.colorAvoiding (g : Interference) (registers : Nat) (avoid : TempSet) :
    Coloring × Interference :=
  let r := (Reduction.new g registers avoid).exhaust
  let colors := Coloring.select r (g.nodes.map (·.color))
  let g := { g with nodes := g.nodes.mapIdx fun i n =>
    { n with color := colors.getD i .unset } }
  (Coloring.ofGraph g (Coloring.mergedTemps g r), g)

/-- Colour the graph with the first `registers` colours. -/
def Interference.colorWith (g : Interference) (registers : Nat) : Coloring × Interference :=
  g.colorAvoiding registers ∅

end TreeBackend
