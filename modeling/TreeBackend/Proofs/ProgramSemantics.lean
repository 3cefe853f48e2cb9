import TreeBackend.Program.Lowering
import TreeBackend.Proofs.Outside
import TreeBackend.Proofs.Processor

/-!
# What programs mean

A program works on registers and memory. The formals that travel in registers
are registers; locals and the other formals are words at their offset from the
frame pointer; fields and the elements of arrays are words at their offset from
the object or the array. Operands are evaluated from left to right, and the
place that is assigned to before the value that goes there. The receiver of a
call comes first, then the code of the method, which is found in the table of
the receiver's class, then the arguments. All calls, also those that print or
reserve memory, are answered by the surroundings, which may change the memory.

A condition, and an operand of `!`, `&&` or `||`, has to be 0 or 1. What happens
otherwise is not said: a program is stuck there, as it is where a name stands
for nothing.
-/

namespace TreeBackend

/-! ## Truth values -/

namespace Word

/-- The word of a truth value. -/
def ofTruth (b : Bool) : BitVec 64 := if b then 1 else 0

/-- The truth value of a word. -/
def truth? (v : BitVec 64) : Option Bool :=
  if v = 1 then some true else if v = 0 then some false else none

theorem truth?_eq_some_iff {v : BitVec 64} {b : Bool} : truth? v = some b ↔ v = ofTruth b := by
  unfold truth? ofTruth
  cases b <;> grind

end Word

/-- The truth value that an action comes to. -/
def Action.truth {M : Type} (m : Action (BitVec 64) M (BitVec 64)) : Action (BitVec 64) M Bool := do
  Word.truth? (← m)

theorem gives_truth {M : Type} {m : Action (BitVec 64) M (BitVec 64)} {b : Bool}
    {o o' : Outside (BitVec 64) M} : Gives m.truth o b o' ↔ Gives m o (Word.ofTruth b) o' := by
  simp only [Action.truth, gives_bind, gives_lift, Word.truth?_eq_some_iff]
  grind

/-! ## Variables -/

/-- Where a variable is kept. -/
inductive Place where
  | register (temp : Temp)
  | word (address : BitVec 64)

/-- The place of a variable of the frame, from the content of the registers. -/
def Access.place (regs : Temp → BitVec 64) : Access → Place
  | register t => .register t
  | frame offset => .word (regs .framePointer + offset.toBitVec)

namespace Place

variable {M : Type} (env : Surroundings M)

/-- Read a variable. -/
def read (regs : Temp → BitVec 64) : Place → Action (BitVec 64) M (BitVec 64)
  | register t => pure (regs t)
  | word address => Action.load env.host address

/-- Write a variable. -/
def write (w : World (BitVec 64) M) (v : BitVec 64) : Place → World (BitVec 64) M
  | register t => w.set t v
  | word address => w.store env.host address v

end Place

/-- The address of an element of an array, after the word with the length. -/
def ArrayLayout.elementAddress (a : ArrayLayout) (base index : BitVec 64) : BitVec 64 :=
  base + (index + 1) * a.wordSize.toBitVec

section Programs

variable {M : Type} (env : Surroundings M) (s : Scope)

namespace Scope

/-- The receiver of the method. -/
def receiver (regs : Temp → BitVec 64) : Action (BitVec 64) M (BitVec 64) :=
  match s.class?, s.frame.find? ClassTable.thisName with
  | some _, some access => (access.place regs).read env regs
  | _, _ => failure

/-- The place of a variable of the frame, or else of a field of the receiver. -/
def locate (regs : Temp → BitVec 64) (name : String) : Action (BitVec 64) M Place :=
  match s.frame.find? name with
  | some access => pure (access.place regs)
  | none => do
    let c ← s.class?
    let object ← s.receiver env regs
    let index ← c.layout.fieldIndex? name
    return .word (object + (c.layout.offset index).toBitVec)

/-- The value of a variable. -/
def valueOf (regs : Temp → BitVec 64) (name : String) : Action (BitVec 64) M (BitVec 64) := do
  (← s.locate env regs name).read env regs

end Scope

namespace Program

/-! ## Expressions -/

/-- An operator applied to what two actions come to. The second one of `&&` and
`||` is left out if the first one decides. -/
def Operator.apply (op : Operator) (x y : Action (BitVec 64) M (BitVec 64)) :
    Action (BitVec 64) M (BitVec 64) :=
  match op with
  | .add => do return (← x) + (← y)
  | .sub => do return (← x) - (← y)
  | .mul => do return (← x) * (← y)
  | .mod => do return env.remainder (← x) (← y)
  | .lt => do return Word.ofTruth ((← x).slt (← y))
  | .and => do
    if ← x.truth then
      return Word.ofTruth (← y.truth)
    else
      return Word.ofTruth false
  | .or => do
    if ← x.truth then
      return Word.ofTruth true
    else
      return Word.ofTruth (← y.truth)

mutual

/-- The **value of an expression**, from the content of the registers. -/
def Expr.eval (regs : Temp → BitVec 64) : Expr → Action (BitVec 64) M (BitVec 64)
  | .int value => pure value.toBitVec
  | .bool value => pure (Word.ofTruth value)
  | .ident name => s.valueOf env regs name
  | .this => s.receiver env regs
  | .binary op l r => op.apply env (l.eval regs) (r.eval regs)
  | .not e => do return Word.ofTruth !(← (e.eval regs).truth)
  | .index array position => do
    let base ← array.eval regs
    let index ← position.eval regs
    Action.load env.host (s.arrays.elementAddress base index)
  | .length array => do
    let base ← array.eval regs
    Action.load env.host base
  | .call receiver className method args => do
    let object ← receiver.eval regs
    let c ← (s.table.find className).toOption
    let index ← c.layout.methods.idxOf? method
    let table ← Action.load env.host object
    let target ← Action.load env.host (table + (c.layout.offset index).toBitVec)
    let args ← Expr.evalArgs regs args
    Action.call env.host target (object :: args)
  | .newArray size => do
    let length ← size.eval regs
    let array ← Action.call env.host (env.address ⟨mallocName⟩)
      [(length + 1) * s.arrays.wordSize.toBitVec]
    Action.store env.host array length
    return array
  | .newObject className => do
    let c ← (s.table.find className).toOption
    let object ← Action.call env.host (env.address ⟨mallocName⟩) [c.layout.size.toBitVec]
    Action.store env.host object (env.address c.layout.vtable)
    (List.range c.layout.fields.length).forM fun index =>
      Action.store env.host (object + (c.layout.offset index).toBitVec) 0
    return object

/-- The values of arguments, from left to right. -/
def Expr.evalArgs (regs : Temp → BitVec 64) : List Expr → Action (BitVec 64) M (List (BitVec 64))
  | [] => pure []
  | e :: es => (e.eval regs).cons (Expr.evalArgs regs es)

end

/-! ## Statements -/

/-- **A statement is run** from one world to another. There is no run if the
statement is stuck or goes on forever. -/
inductive Stmt.Exec : Stmt → World (BitVec 64) M → World (BitVec 64) M → Prop where
  | nil (w : World (BitVec 64) M) : Exec (.block []) w w
  | cons {first : Stmt} {rest : List Stmt} {w w₁ w' : World (BitVec 64) M}
      (head : Exec first w w₁) (tail : Exec (.block rest) w₁ w') :
      Exec (.block (first :: rest)) w w'
  | iteTrue {condition : Expr} {whenTrue whenFalse : Stmt} {w w₁ w' : World (BitVec 64) M}
      (test : w.Gives (condition.eval env s w.temps).truth true w₁)
      (branch : Exec whenTrue w₁ w') : Exec (.ite condition whenTrue whenFalse) w w'
  | iteFalse {condition : Expr} {whenTrue whenFalse : Stmt} {w w₁ w' : World (BitVec 64) M}
      (test : w.Gives (condition.eval env s w.temps).truth false w₁)
      (branch : Exec whenFalse w₁ w') : Exec (.ite condition whenTrue whenFalse) w w'
  | whileTrue {condition : Expr} {body : Stmt} {w w₁ w₂ w' : World (BitVec 64) M}
      (test : w.Gives (condition.eval env s w.temps).truth true w₁) (turn : Exec body w₁ w₂)
      (rest : Exec (.while condition body) w₂ w') : Exec (.while condition body) w w'
  | whileFalse {condition : Expr} {body : Stmt} {w w' : World (BitVec 64) M}
      (test : w.Gives (condition.eval env s w.temps).truth false w') :
      Exec (.while condition body) w w'
  | print {value : Expr} {v answer : BitVec 64} {w w₁ w' : World (BitVec 64) M}
      (operand : w.Gives (value.eval env s w.temps) v w₁)
      (call : w₁.Gives (Action.call env.host (env.address ⟨printName⟩) [v]) answer w') :
      Exec (.print value) w w'
  | assign {name : String} {value : Expr} {place : Place} {v : BitVec 64}
      {w w₁ w' : World (BitVec 64) M} (locate : w.Gives (s.locate env w.temps name) place w₁)
      (source : w₁.Gives (value.eval env s w₁.temps) v w') :
      Exec (.assign name value) w (place.write env w' v)
  | arrayAssign {name : String} {position value : Expr} {base index v : BitVec 64}
      {w w₁ w₂ w' : World (BitVec 64) M} (array : w.Gives (s.valueOf env w.temps name) base w₁)
      (subscript : w₁.Gives (position.eval env s w₁.temps) index w₂)
      (source : w₂.Gives (value.eval env s w₂.temps) v w') :
      Exec (.arrayAssign name position value) w
        (w'.store env.host (s.arrays.elementAddress base index) v)

/-- **A method is run** from one world to another, with a result. -/
def MethodDecl.Exec (m : MethodDecl) (w : World (BitVec 64) M) (result : BitVec 64)
    (w' : World (BitVec 64) M) : Prop :=
  ∃ w₁, Stmt.Exec env s (.block m.body) w w₁ ∧ w₁.Gives (m.result.eval env s w₁.temps) result w'

end Program

end Programs

/-! ## Programs that ask for the length of an array -/

namespace Program

mutual

/-- Whether the expression asks for the length of an array. -/
def Expr.usesLength : Expr → Bool
  | .int _ | .bool _ | .ident _ | .this | .newObject _ => false
  | .binary _ l r => l.usesLength || r.usesLength
  | .not e | .newArray e => e.usesLength
  | .index array position => array.usesLength || position.usesLength
  | .length _ => true
  | .call receiver _ _ args => receiver.usesLength || Expr.anyUsesLength args

/-- Whether one of the expressions asks for the length of an array. -/
def Expr.anyUsesLength : List Expr → Bool
  | [] => false
  | e :: es => e.usesLength || Expr.anyUsesLength es

end

mutual

/-- Whether the statement asks for the length of an array. -/
def Stmt.usesLength : Stmt → Bool
  | .block body => Stmt.anyUsesLength body
  | .ite condition whenTrue whenFalse =>
    condition.usesLength || whenTrue.usesLength || whenFalse.usesLength
  | .while condition body => condition.usesLength || body.usesLength
  | .print value | .assign _ value => value.usesLength
  | .arrayAssign _ position value => position.usesLength || value.usesLength

/-- Whether one of the statements asks for the length of an array. -/
def Stmt.anyUsesLength : List Stmt → Bool
  | [] => false
  | stmt :: rest => stmt.usesLength || Stmt.anyUsesLength rest

end

/-- Whether the method asks for the length of an array. -/
def MethodDecl.usesLength (m : MethodDecl) : Bool :=
  Stmt.anyUsesLength m.body || m.result.usesLength

end Program

end TreeBackend
