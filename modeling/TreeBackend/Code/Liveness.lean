import TreeBackend.Code.Flow
import TreeBackend.Session.Basic

/-!
# Liveness

A temp is **live** at a point of the code when some path from there reads it
before writing it. The live sets satisfy two equations at every node: what is
live after it is what is live before one of its successors, and what is live
before it is what it reads together with what is live after it and not written
by it.

`Liveness.solve` starts from empty sets and brings one node at a time into
accord with the equations, taking nodes from a queue that holds every node at
first, the last one in front. A node whose sets change sends its neighbours
back to the queue.
-/

namespace TreeBackend

/-- The live sets of code. -/
structure Liveness where
  /-- The nodes of the control flow. -/
  flow : Array FlowNode := #[]
  /-- What is live before each node. -/
  liveIn : Array TempSet := #[]
  /-- What is live after each node. -/
  liveOut : Array TempSet := #[]
  /-- How many nodes were taken from the queue. -/
  iterations : Nat := 0

namespace Liveness

/-- What is live before the node at `index`. -/
def before (l : Liveness) (index : Nat) : TempSet := l.liveIn.getD index ∅

/-- What is live after the node at `index`. -/
def after (l : Liveness) (index : Nat) : TempSet := l.liveOut.getD index ∅

/-- What is live after a node, by what is live before its successors. -/
def join (l : Liveness) (node : FlowNode) : TempSet :=
  node.succ.foldl (fun out s => out ∪ l.before s) ∅

/-- What is live before a node, by what is live after it. -/
def transfer (node : FlowNode) (out : TempSet) : TempSet := (out \ node.defs) ∪ node.uses

/-- Whether the live sets at `index` satisfy both equations of `node`. -/
def agrees (l : Liveness) (node : FlowNode) (index : Nat) : Bool :=
  l.join node == l.after index && transfer node (l.join node) == l.before index

/-- Add a node to the end of the queue, unless it is waiting already. -/
def enqueue (queue : List Nat) (index : Nat) : List Nat :=
  if index ∈ queue then queue else queue ++ [index]

/-- Bring the node at `index` into accord, `queue` being the nodes that wait
behind it. -/
def visit (l : Liveness) (index : Nat) (queue : List Nat) : Liveness × List Nat :=
  let l := { l with iterations := l.iterations + 1 }
  match l.flow[index]? with
  | none => (l, queue)
  | some node =>
    if l.agrees node index then (l, queue)
    else
      let out := l.join node
      ({ l with
          liveOut := l.liveOut.setIfInBounds index out
          liveIn := l.liveIn.setIfInBounds index (transfer node out) },
        (node.pred ++ node.succ).foldl enqueue queue)

/-- Visit nodes until none waits, at most `fuel` of them. -/
def run : Nat → Liveness → List Nat → Liveness
  | 0, l, _ => l
  | _ + 1, l, [] => l
  | fuel + 1, l, index :: queue =>
    let (l, queue) := l.visit index queue
    run fuel l queue

/-- An upper bound on the number of visits: every node waits at first, and each
of its neighbours is sent back at most once for every temp that its two live
sets can gain. -/
def visitBound (flow : Array FlowNode) : Nat :=
  let temps := (flow.map fun node => node.uses.size).foldr (· + ·) 0
  let degree := (flow.map fun node => node.pred.length + node.succ.length).foldr (· + ·) 0
  flow.size + 2 * temps * degree

/-- The **live sets** of a control flow. -/
def solve (flow : Array FlowNode) : Liveness :=
  let empty := Array.replicate flow.size ∅
  run (visitBound flow) { flow, liveIn := empty, liveOut := empty }
    (List.range flow.size).reverse

/-- The live sets of code; the visits are counted in the session's statistics. -/
def analyze (code : List Instruction) : CompileM Liveness := do
  let flow ← Flow.ofCode code
  let l := solve flow.toArray
  Session.count (·.addLiveness l.iterations)
  return l

/-- The most temps that are live after any one node. -/
def pressure (l : Liveness) : Nat := (l.liveOut.toList.map fun live => live.size).foldl max 0

/-- The first node at which an equation fails. -/
def firstViolation? (l : Liveness) : Option Nat :=
  (l.flow.toList.zipIdx.find? fun entry => !l.agrees entry.1 entry.2).map Prod.snd

end Liveness

end TreeBackend
