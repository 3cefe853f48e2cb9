import TreeBackend.Alloc.Interference
import TreeBackend.Text.Printer

/-!
# Diagrams

Trees, statement lists, live sets and interference graphs as Graphviz text. A
diagram is one `digraph` or `graph`; its nodes are numbered in the order they
are drawn in, and their labels are escaped.
-/

namespace TreeBackend

namespace Diagram

/-- Text inside a quoted label: backslashes, quotes and newlines are escaped. -/
def escape (text : String) : String :=
  String.join (text.toList.map fun c =>
    if c = '\\' then "\\\\"
    else if c = '"' then "\\\""
    else if c = '\n' then "\\n"
    else c.toString)

/-- Lines between the braces of a diagram called `name`. -/
def enclose (keyword name : String) (lines : List String) : String :=
  Text.unlines ((keyword ++ " \"" ++ escape name ++ "\" \x7b") :: lines ++ ["\x7d"])

/-- A node: its number after a letter, its label, and further attributes. -/
def node (letter : String) (id : Nat) (label : String) (attributes : String) : String :=
  s!"  {letter}{id} [label=\"" ++ escape label ++ "\"" ++ attributes ++ "];"

/-- The attributes that all nodes of a diagram of boxes share. -/
def boxes : String := "  node [shape=box, fontsize=12];"

/-- A tree that is being drawn. -/
structure Drawing where
  /-- The number the next node gets. -/
  next : Nat := 0
  /-- The lines so far, the latest first. -/
  reversed : List String := []

/-- Draw a node under its parent; returns its number. -/
def draw (label : String) (parent? : Option Nat) : StateM Drawing Nat := do
  let id := (← get).next
  let edge := match parent? with
    | some parent => [s!"  n{parent} -> n{id};"]
    | none => []
  modify fun d => { next := id + 1, reversed := edge ++ node "n" id label "" :: d.reversed }
  return id

mutual

/-- Draw an expression under its parent. -/
def drawExp (parent : Nat) : Exp → StateM Drawing Unit
  | .binop op l r => do
    let id ← draw ("BINOP " ++ op.name) (some parent)
    drawExp id l
    drawExp id r
  | .not e => do
    let id ← draw "NOT" (some parent)
    drawExp id e
  | .mem e => do
    let id ← draw "MEM" (some parent)
    drawExp id e
  | .call f args => do
    let id ← draw "CALL" (some parent)
    drawExp id f
    drawExps id args
  | .eseq s e => do
    let id ← draw "ESEQ" (some parent)
    drawStm (some id) s
    drawExp id e
  | .const n => do let _ ← draw (Exp.const n).print (some parent)
  | .name l => do let _ ← draw (Exp.name l).print (some parent)
  | .temp t => do let _ ← draw t.print (some parent)

/-- Draw expressions under one parent. -/
def drawExps (parent : Nat) : List Exp → StateM Drawing Unit
  | [] => pure ()
  | e :: es => do
    drawExp parent e
    drawExps parent es

/-- Draw a statement, under its parent if it has one. -/
def drawStm (parent? : Option Nat) : Stm → StateM Drawing Unit
  | .seq a b => do
    let id ← draw "SEQ" parent?
    drawStm (some id) a
    drawStm (some id) b
  | .move dst src => do
    let id ← draw "MOVE" parent?
    drawExp id dst
    drawExp id src
  | .exp e => do
    let id ← draw "EXP" parent?
    drawExp id e
  | .jump l => do let _ ← draw ("JUMP " ++ l.name) parent?
  | .cjump rel l r target => do
    let id ← draw ("CJUMP " ++ rel.name ++ " " ++ target.name) parent?
    drawExp id l
    drawExp id r
  | .label l => do let _ ← draw ("LABEL " ++ l.name) parent?

end

/-- The diagram of a statement's tree. -/
def tree (name : String) (s : Stm) : String :=
  let (_, drawing) := (drawStm none s).run {}
  enclose "digraph" name (boxes :: drawing.reversed.reverse)

/-- The diagram of a list of statements: a chain in the order they run in. -/
def statements (name : String) (stms : List Stm) : String :=
  enclose "digraph" name (boxes :: stms.zipIdx.flatMap fun entry =>
    node "s" entry.2 (String.intercalate "\n" entry.1.lines) ""
      :: if entry.2 = 0 then [] else [s!"  s{entry.2 - 1} -> s{entry.2};"])

/-- The temps of a set, as shown to a reader. -/
def tempNames (temps : TempSet) : String := String.intercalate " " (temps.toList.map Temp.display)

/-- The diagram of the control flow with live sets. Copies are dashed. -/
def liveness (name : String) (code : List Instruction) (live : Liveness) : String :=
  let nodes := (code.zip live.flow.toList).zipIdx.map fun entry =>
    let label := entry.1.1.render ++ "\nin: " ++ tempNames (live.before entry.2)
      ++ "\nout: " ++ tempNames (live.after entry.2)
    node "i" entry.2 label (if entry.1.2.isCopy then ", style=dashed" else "")
  let edges := live.flow.toList.zipIdx.flatMap fun entry =>
    entry.1.succ.map fun s => s!"  i{entry.2} -> i{s};"
  enclose "digraph" name ("  graph [rankdir=TD];" :: boxes :: nodes ++ edges)

/-- What colouring decided about a node, in words. -/
def colorText : NodeColor → String
  | .unset => "-"
  | .toSpill => "to spill"
  | .spilled => "spilled"
  | .color c => toString c

/-- The diagram of an interference graph. Move edges are dashed, and nodes that
are coloured from the start have a double border. -/
def interference (name : String) (g : Interference) : String :=
  let nodes := g.nodes.toList.zipIdx.map fun entry =>
    node "t" entry.2 (entry.1.temp.display ++ "\n" ++ colorText entry.1.color)
      (if entry.1.precolored then ", shape=doublecircle" else "")
  let edges := g.edges.map fun pair => s!"  t{pair.1} -- t{pair.2};"
  let moves := g.moveEdges.map fun pair => s!"  t{pair.1} -- t{pair.2} [style=dashed];"
  enclose "graph" name ("  node [shape=ellipse, fontsize=12];" :: nodes ++ edges ++ moves)

end Diagram

end TreeBackend
