import TreeBackend.Alloc.Allocation
import TreeBackend.Code.Selection
import TreeBackend.Program.Lowering
import TreeBackend.Text.Reader
import TreeBackend.Tree.Block
import TreeBackend.Tree.Canonical
import TreeBackend.Tree.Linear

/-!
# Compiling methods

A method goes through every stage before the next one starts: canonical form,
linear form, blocks, instructions, registers. All of its temps and labels come
from one session.

The entry of a method that was lowered from a program is known from its frame.
A method read from text has no frame to tell; whatever its code reads before
writing it arrives from the caller, and a temp called `ret` is its result.
-/

namespace TreeBackend

/-- What every stage made of a method. -/
structure CompiledMethod where
  name : String
  canonical : Stm
  linear : List Stm
  reblocked : List Stm
  /-- The selected instructions, before allocation. -/
  code : Code
  allocation : Allocation
  frame : Frame

/-- The entry and exit of a method. -/
structure Boundary where
  /-- The temps that arrive from the caller, if they are known. -/
  entry? : Option (List Temp)
  /-- The temps that the caller reads. -/
  exit : List Temp

namespace CompiledMethod

/-- The name of the temp that holds the result of a method read from text. -/
def resultName : String := "ret"

/-- Refuse a configuration with a fault. -/
def checkConfig : CompileM Unit := do
  match (← get).config.fault? with
  | some fault => throw (.config fault)
  | none => pure ()

/-- Let the first instruction define what is live before it. -/
def inferEntry (code : Code) : CompileM Code := do
  let live ← Liveness.analyze code.instructions
  let entry := (live.before 0).toList.filter fun t => !t.isFramePointer
  match code.instructions with
  | [] => return code
  | first :: rest => return { code with instructions := { first with defs := entry } :: rest }

/-- Select the code of a body between its entry and exit. -/
def selectBody (body : List Stm) (boundary : Boundary) : CompileM Code := do
  match boundary.entry? with
  | some entry => Selection.ofMethod body entry boundary.exit
  | none => inferEntry (← Selection.ofMethod body [] boundary.exit)

/-- Take a method through every stage. With `strict`, temps without a register
are an error. -/
def compile (strict : Bool) (name : String) (body : Stm) (frame : Frame) (boundary : Boundary) :
    CompileM CompiledMethod := do
  let canonical ← body.canonicalize
  let linear ← canonical.linearize
  Session.count (·.addStatements linear.length)
  let reblocked ← Block.reblock linear
  let code ← selectBody reblocked boundary
  let (allocation, frame) ← allocate code.instructions frame
  if strict then
    if let some error := allocation.error? name then throw error
  Session.count (·.addMethod name code.instructions.length)
  return { name, canonical, linear, reblocked, code, allocation, frame }

/-- Compile a method lowered from a program. -/
def ofTree (strict : Bool) (m : MethodTree) : CompileM CompiledMethod :=
  compile strict m.name m.body.toStm m.frame { entry? := some m.entry, exit := m.exit }

/-- **Compile a method read from text.** -/
def ofText (strict : Bool) (m : Text.MethodText) : CompileM CompiledMethod := do
  checkConfig
  let frame ← Frame.new m.name
  compile strict m.name m.body frame { entry? := none, exit := (m.temp? resultName).toList }

/-- **Compile a program**: all of its methods are lowered before the first one is
compiled. -/
def ofProgram (strict : Bool) (program : Program) : CompileM (List CompiledMethod) := do
  checkConfig
  let table ← ClassTable.build program
  let trees ← MethodTree.ofProgram program table
  trees.mapM (ofTree strict)

end CompiledMethod

end TreeBackend
