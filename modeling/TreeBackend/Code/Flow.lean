import TreeBackend.Code.Instruction
import TreeBackend.Error

/-!
# Control flow of code

Every instruction is a node. Control goes from an instruction to the next one,
unless the instruction is a jump that is always taken or a return, and to the
place of every label the instruction may jump to.
-/

namespace TreeBackend

/-- An instruction as a node of the control flow. -/
structure FlowNode where
  /-- The temps the instruction reads. -/
  uses : TempSet
  /-- The temps the instruction writes. -/
  defs : TempSet
  /-- Where control may go next: straight on first, then to targets. -/
  succ : List Nat
  /-- Where control may come from, in ascending order. -/
  pred : List Nat
  /-- Whether the instruction is a copy. -/
  isCopy : Bool

namespace Flow

/-- Where a label is placed. -/
def labelIndex? (code : List Instruction) (label : Label) : Option Nat :=
  code.findIdx? fun i => i.label? = some label

/-- Add the place of a target to the successors, once. -/
def addTarget (code : List Instruction) (succ : List Nat) (target : Label) :
    Except Error (List Nat) :=
  match labelIndex? code target with
  | some index => return if index ∈ succ then succ else succ ++ [index]
  | none => throw (.undefinedLabel target)

/-- The **successors** of the instruction `i` at `index`. -/
def successors (code : List Instruction) (i : Instruction) (index : Nat) :
    Except Error (List Nat) :=
  i.targets.foldlM (addTarget code)
    (if i.opcode.fallsThrough && index + 1 < code.length then [index + 1] else [])

/-- The nodes that have `index` among their successors. -/
def predecessors (succ : List (List Nat)) (index : Nat) : List Nat :=
  (succ.zipIdx.filter fun entry => index ∈ entry.1).map Prod.snd

/-- The **control flow** of code, a node per instruction. Fails on a label that
is placed twice, then on the first target that is placed nowhere. -/
def ofCode (code : List Instruction) : Except Error (List FlowNode) := do
  match Label.firstRepeated [] (code.filterMap Instruction.label?) with
  | some l => throw (.malformed (.labelInCodeTwice l))
  | none =>
    let succ ← code.zipIdx.mapM fun entry => successors code entry.1 entry.2
    return (code.zip succ).zipIdx.map fun entry =>
      { uses := TempSet.ofList entry.1.1.uses
        defs := TempSet.ofList entry.1.1.defs
        succ := entry.1.2
        pred := predecessors succ entry.2
        isCopy := entry.1.1.isCopy }

end Flow

end TreeBackend
