import TreeBackend.Code.Instruction
import TreeBackend.Session.Basic

/-!
# Instruction selection

Selection covers a linear body with instructions, statement by statement and
the largest fitting pattern first: `[base + constant]` becomes part of a memory
operand, a constant becomes an immediate where the instruction takes one, and
every intermediate value goes into a temp of its own.

A tree can stand in three roles – as a value wanted in a temp, as an address
wanted in a memory operand, as the function of a call – and is covered in each
by its own pattern. `Cover` holds the three, and `Exp.cover` computes them
from the covers of the parts.
-/

namespace TreeBackend

/-- Selected code, and the temps that were drawn for it. -/
structure Code where
  instructions : List Instruction := []
  /-- The temps drawn while selecting, in order. -/
  temps : List Temp := []

/-- The state of a selection: the session it draws from, and the code so far. -/
structure Selection where
  session : Session
  code : Code := {}

/-- Computations that emit instructions; what was emitted before a failure
stays emitted. -/
abbrev SelectM := ExceptT Error (StateM Selection)

namespace Selection

/-- Add an instruction to the code. -/
def emit (i : Instruction) : SelectM Unit :=
  modify fun s => { s with code := { s.code with instructions := s.code.instructions ++ [i] } }

/-- Draw a temp for an intermediate value. -/
def fresh (name : String) : SelectM Temp := do
  let s ← get
  let (t, session) := (Session.newTemp name).run s.session
  set { s with session, code := { s.code with temps := s.code.temps ++ [t] } }
  return t

/-- The branch that is taken when `rel` held in the last comparison. -/
def branch : RelOp → Opcode
  | .eq => .je
  | .neq => .jne
  | .lt => .jl

/-- The branch for a comparison made with its sides exchanged. -/
def flippedBranch : RelOp → Opcode
  | .eq => .je
  | .neq => .jne
  | .lt => .jg

/-- Where the code of a call is found. -/
inductive Callee where
  | direct (symbol : Label)
  | memory (address : Address)
  | register (target : Temp)

/-- The temps that a call leaves without their content; the first holds the
result. -/
def clobbers : List Temp := [.fixed .eax, .fixed .edx]

/-- The three roles in which a tree can be covered. -/
structure Cover where
  /-- A temp that holds the value. -/
  value : SelectM Temp
  /-- A memory operand at the address the tree denotes. -/
  address : SelectM Address
  /-- The function a call goes to. -/
  callee : SelectM Callee

/-- The cover of a tree that has no pattern but the one for its value. -/
def Cover.ofValue (value : SelectM Temp) : Cover where
  value
  address := return ⟨some (← value), 0⟩
  callee := return .register (← value)

/-- `dst := left op right` for the operators that are one instruction: copy
the left operand into a new temp, then combine it with the right one. -/
def arithmetic (opcode : Opcode) (name : String) (left right : SelectM Temp) : SelectM Temp := do
  let a ← left
  let b ← right
  let t ← fresh name
  emit (.mov t a)
  emit (.binary opcode t b)
  return t

/-- The same with a constant for the right operand. -/
def arithmeticImm (opcode : Opcode) (name : String) (left : SelectM Temp) (value : Int64) :
    SelectM Temp := do
  let a ← left
  let t ← fresh name
  emit (.mov t a)
  emit (.binaryImm opcode t value)
  return t

/-- A product with a constant. -/
def product (factor : SelectM Temp) (value : Int64) : SelectM Temp := do
  let a ← factor
  let t ← fresh "mul"
  emit (.imulImm t a value)
  return t

/-- A remainder, by way of the machine's fixed pair for division. -/
def remainder (left right : SelectM Temp) : SelectM Temp := do
  let dividend ← left
  let divisor ← right
  emit (.mov (.fixed .eax) dividend)
  emit (.cdq (.fixed .eax) (.fixed .edx))
  emit (.idiv divisor (.fixed .eax) (.fixed .edx))
  let t ← fresh "mod"
  emit (.mov t (.fixed .edx))
  return t

/-- An operator of one instruction: a constant on the right, or on the left of
a symmetric operator, becomes an immediate. -/
def additive (op : BinOp) (opcode : Opcode) (l r : Exp) (left right : SelectM Temp) :
    SelectM Temp :=
  match l, r with
  | _, .const c => arithmeticImm opcode op.name left c
  | .const c, _ =>
    if op.isSymmetric then arithmeticImm opcode op.name right c
    else arithmetic opcode op.name left right
  | _, _ => arithmetic opcode op.name left right

/-- The value of `l op r`, from the covers of the operands. -/
def operation (op : BinOp) (l r : Exp) (left right : SelectM Temp) : SelectM Temp :=
  match op with
  | .plus => additive op .add l r left right
  | .minus => additive op .sub l r left right
  | .and => additive op .and l r left right
  | .or => additive op .or l r left right
  | .mul =>
    match l, r with
    | _, .const c => product left c
    | .const c, _ => product right c
    | _, _ => arithmetic .imul op.name left right
  | .mod => remainder left right

/-- The address that `l op r` denotes: a constant that is added or subtracted
becomes the displacement. The least word has no negation, so subtracting it
is computed. -/
def displaced (op : BinOp) (l r : Exp) (left right whole : SelectM Temp) : SelectM Address :=
  match op, l, r with
  | .plus, _, .const c => return ⟨some (← left), c⟩
  | .plus, .const c, _ => return ⟨some (← right), c⟩
  | .minus, _, .const c =>
    if c = Int64.minValue then return ⟨some (← whole), 0⟩ else return ⟨some (← left), -c⟩
  | _, _, _ => return ⟨some (← whole), 0⟩

/-- Evaluate the arguments in order, then the function, then call. The result
is left in the first clobbered temp. -/
def callThrough (function : SelectM Callee) (args : SelectM (List Temp)) : SelectM Unit := do
  let args ← args
  match ← function with
  | .direct symbol => emit (.callDirect symbol args clobbers)
  | .memory address => emit (.callMemory address args clobbers)
  | .register target => emit (.callRegister target args clobbers)

end Selection

open Selection

mutual

/-- The patterns that cover an expression in each of its roles. -/
def Exp.cover : Exp → Cover
  | .temp t => .ofValue (return t)
  | .const c => { Cover.ofValue (do
      let t ← fresh "const"
      emit (.movImm t c)
      return t) with
    address := return ⟨none, c⟩ }
  | .name l => { Cover.ofValue (do
      let t ← fresh "name"
      emit (.movSymbol t l)
      return t) with
    callee := return .direct l }
  | .mem a =>
    let inner := a.cover
    { Cover.ofValue (do
        let address ← inner.address
        let t ← fresh "load"
        emit (.load t address)
        return t) with
      callee := return .memory (← inner.address) }
  | .binop op l r =>
    let left := l.cover.value
    let right := r.cover.value
    let whole := operation op l r left right
    { Cover.ofValue whole with address := displaced op l r left right whole }
  | .not e => .ofValue do
    let s ← e.cover.value
    let t ← fresh "not"
    emit (.mov t s)
    emit (.binaryImm .xor t 1)
    return t
  | .call f args => .ofValue do
    callThrough f.cover.callee (Exp.selectAll args)
    let t ← fresh "call"
    emit (.mov t (.fixed .eax))
    return t
  | .eseq .. => .ofValue (throw (.malformed .eseqSelected))

/-- Temps that hold the values of expressions, evaluated in order. -/
def Exp.selectAll : List Exp → SelectM (List Temp)
  | [] => return []
  | e :: es => do
    let t ← e.cover.value
    let ts ← Exp.selectAll es
    return t :: ts

end

/-- A temp that holds the value of an expression. -/
def Exp.select (e : Exp) : SelectM Temp := e.cover.value

namespace Stm

/-- Cover a move. Into memory the value is evaluated before the address. -/
def selectMove : Exp → Exp → SelectM Unit
  | .temp d, .call f args => do
    callThrough f.cover.callee (Exp.selectAll args)
    emit (.mov d (.fixed .eax))
  | .temp d, .mem a => do emit (.load d (← a.cover.address))
  | .temp d, .const c => emit (.movImm d c)
  | .temp d, .name l => emit (.movSymbol d l)
  | .temp d, src => do emit (.mov d (← src.select))
  | .mem a, src => do
    let value ← src.select
    emit (.store (← a.cover.address) value)
  | dst, _ => throw (.unsupportedMove dst.kind)

/-- Cover a branch. A constant side becomes an immediate; if it is the left
side, the comparison is made with its sides exchanged. -/
def selectBranch (rel : RelOp) (l r : Exp) (target : Label) : SelectM Unit :=
  match l, r with
  | _, .const c => do
    emit (.cmpImm (← l.select) c)
    emit (.jump (branch rel) target)
  | .const c, _ => do
    emit (.cmpImm (← r.select) c)
    emit (.jump (flippedBranch rel) target)
  | _, _ => do
    let a ← l.select
    let b ← r.select
    emit (.cmp a b)
    emit (.jump (branch rel) target)

/-- Cover a plain statement. -/
def select : Stm → SelectM Unit
  | move dst src => selectMove dst src
  | exp (.call f args) => callThrough f.cover.callee (Exp.selectAll args)
  | exp e => do let _ ← e.select
  | jump l => emit (.jump .jmp l)
  | cjump rel l r target => selectBranch rel l r target
  | label l => emit (.label l)
  | seq .. => throw (.malformed .seqSelected)

end Stm

namespace Selection

/-- Run a selection from empty code. Every emitted instruction is counted in
the session's statistics, also when the selection fails. -/
def run {α : Type} (select : SelectM α) : CompileM (α × Code) := fun session =>
  let (result, s) := select.run { session }
  let counted := s.code.instructions.foldl
    (fun stats i => stats.addInstruction i.opcode.mnemonic) s.session.stats
  (result.map (·, s.code), { s.session with stats := counted })

/-- Cover the statements of a linear body, in order. -/
def stms (body : List Stm) : SelectM Unit := body.forM Stm.select

/-- The code of a linear body. -/
def ofStms (body : List Stm) : CompileM Code := do
  return (← run (stms body)).2

/-- The code of a method: its body between `enter`, which defines the temps
that arrive from the caller, and `ret`, which uses the temps the caller reads. -/
def ofMethod (body : List Stm) (entry exit : List Temp) : CompileM Code := do
  let (_, code) ← run do
    emit (.enter entry)
    stms body
    emit (.ret exit)
  return code

end Selection

end TreeBackend
