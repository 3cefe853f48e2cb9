import TreeBackend.Program.ClassTable
import TreeBackend.Tree.Fragment

/-!
# Lowering programs to trees

Every method becomes one tree, the main method first. Conditions are lowered as
fragments, so that a comparison in an `if` or a `while` becomes a branch without
a detour through 0 and 1. The right operand of `&&` and `||` is reached only
when the left one did not decide.
-/

namespace TreeBackend

open Program

/-- The tree of a method, and the frame it was lowered for. -/
structure MethodTree where
  name : String
  body : Fragment
  frame : Frame
  /-- Whether the method has a result; the main method has none. -/
  returns : Bool

/-- The temps that a method's caller fills in. -/
def MethodTree.entry (m : MethodTree) : List Temp := m.frame.registerFormals

/-- The temps that a method's caller reads. -/
def MethodTree.exit (m : MethodTree) : List Temp := if m.returns then [m.frame.result] else []

/-- What is in scope where a method is lowered. -/
structure Scope where
  /-- The name of the method's code. -/
  key : String
  /-- The class that the method belongs to; the main method belongs to none. -/
  class? : Option ClassInfo
  frame : Frame
  table : ClassTable
  arrays : ArrayLayout

namespace Scope

/-- The receiver. -/
def this (s : Scope) : Except Error Exp :=
  match s.class?, s.frame.find? ClassTable.thisName with
  | some _, some access => return access.toExp
  | _, _ => throw (.undeclared ClassTable.thisName s.key)

/-- A variable of the frame, or else a field of the receiver. -/
def lookup (s : Scope) (name : String) : Except Error Exp := do
  match s.frame.find? name with
  | some access => return access.toExp
  | none =>
    match s.class? with
    | none => throw (.undeclared name s.key)
    | some c =>
      match c.layout.field? name (← s.this) with
      | some field => return field
      | none => throw (.undeclared name s.key)

end Scope

namespace Program

/-- An arithmetic operator, from its lowered operands. -/
def lowerArithmetic (op : BinOp) (left right : CompileM Fragment) : CompileM Fragment := do
  let l ← (← left).toExp
  let r ← (← right).toExp
  return .exp (.binop op l r)

/-- A conjunction or a disjunction, from its operands. `first` turns the left
operand into the branch that decides without the right one. -/
def lowerLogical (name : String) (left right : CompileM Fragment)
    (first : Fragment → Label → Label → CompileM Stm) : CompileM Fragment := do
  let result ← Session.newTemp name
  let whenTrue ← Session.freshLabel
  let whenFalse ← Session.freshLabel
  let done ← Session.freshLabel
  let left ← left
  let right ← right
  let first ← first left whenTrue whenFalse
  let second ← right.toBranch .neq whenFalse
  let body := Stm.seqAll
    [first,
      second,
      .label whenTrue,
      .move (.temp result) (.const 1),
      .jump done,
      .label whenFalse,
      .move (.temp result) (.const 0),
      .label done]
  return .exp (.eseq body (.temp result))

/-- An operator, from its lowered operands. -/
def lowerBinary (op : Operator) (left right : CompileM Fragment) : CompileM Fragment :=
  match op with
  | .add => lowerArithmetic .plus left right
  | .sub => lowerArithmetic .minus left right
  | .mul => lowerArithmetic .mul left right
  | .mod => lowerArithmetic .mod left right
  | .lt => do
    let l ← (← left).toExp
    let r ← (← right).toExp
    return .cond .lt l r
  | .and => lowerLogical "and" left right fun left _ whenFalse => left.toBranch .neq whenFalse
  | .or => lowerLogical "or" left right fun left whenTrue _ => left.toBranch .eq whenTrue

mutual

/-- **Lower** an expression. The receiver of a call is evaluated once, before
the arguments. -/
def Expr.lower (s : Scope) : Expr → CompileM Fragment
  | .int value => pure (.exp (.const value))
  | .bool value => pure (.exp (.const (if value then 1 else 0)))
  | .ident name => return .exp (← s.lookup name)
  | .this => return .exp (← s.this)
  | .binary op l r => lowerBinary op (l.lower s) (r.lower s)
  | .not e => return .exp (.not (← (← e.lower s).toExp))
  | .index array position => do
    let base ← (← array.lower s).toExp
    let position ← (← position.lower s).toExp
    return .exp (s.arrays.element base position)
  | .length array => return .exp (s.arrays.length (← (← array.lower s).toExp))
  | .call receiver className method args => do
    let receiver ← (← receiver.lower s).toExp
    let object ← Session.newTemp "recv"
    let c ← s.table.find className
    match c.layout.method? method (.temp object) with
    | none => throw (.unresolvedMethod className method)
    | some target =>
      let args ← Expr.lowerArgs s args
      return .exp (.eseq (.move (.temp object) receiver) (.call target (.temp object :: args)))
  | .newArray size => do
    let size ← (← size.lower s).toExp
    return .exp (← s.arrays.allocate size)
  | .newObject className => do
    let c ← s.table.find className
    return .exp (← c.layout.allocate)

/-- The values of arguments, from left to right. -/
def Expr.lowerArgs (s : Scope) : List Expr → CompileM (List Exp)
  | [] => return []
  | e :: es => do
    let e ← (← e.lower s).toExp
    let es ← Expr.lowerArgs s es
    return e :: es

end

mutual

/-- **Lower** a statement. -/
def Stmt.lower (s : Scope) : Stmt → CompileM Stm
  | .block body => return Stm.seqAll (← Stmt.lowerAll s body)
  | .ite condition whenTrue whenFalse => do
    let thenLabel ← Session.freshLabel
    let elseLabel ← Session.freshLabel
    let done ← Session.freshLabel
    let branch ← (← condition.lower s).toBranch .eq thenLabel
    let whenFalse ← whenFalse.lower s
    let whenTrue ← whenTrue.lower s
    return Stm.seqAll
      [branch,
        .label elseLabel,
        whenFalse,
        .jump done,
        .label thenLabel,
        whenTrue,
        .jump done,
        .label done]
  | .while condition body => do
    let test ← Session.freshLabel
    let bodyLabel ← Session.freshLabel
    let done ← Session.freshLabel
    let branch ← (← condition.lower s).toBranch .eq bodyLabel
    let body ← body.lower s
    return Stm.seqAll
      [.label test,
        branch,
        .jump done,
        .label bodyLabel,
        body,
        .jump test,
        .label done]
  | .print value => do
    let value ← (← value.lower s).toExp
    let print ← Session.namedLabel printName
    return .exp (.call (.name print) [value])
  | .assign name value => do
    let dst ← s.lookup name
    let value ← (← value.lower s).toExp
    return .move dst value
  | .arrayAssign name position value => do
    let base ← s.lookup name
    let position ← (← position.lower s).toExp
    let value ← (← value.lower s).toExp
    return .move (s.arrays.element base position) value

/-- Lower statements in order. -/
def Stmt.lowerAll (s : Scope) : List Stmt → CompileM (List Stm)
  | [] => return []
  | stmt :: rest => do
    let stmt ← stmt.lower s
    let rest ← Stmt.lowerAll s rest
    return stmt :: rest

end

end Program

namespace MethodTree

/-- The tree of the main method. -/
def ofMain (program : Program) (table : ClassTable) (arrays : ArrayLayout) :
    CompileM MethodTree := do
  let key := ClassTable.mainKey program.mainName
  let frame ← Frame.new key
  let body ← Stmt.lowerAll { key, class? := none, frame, table, arrays } program.mainBody
  return { name := key, body := .stm (Stm.seqAll body), frame, returns := false }

/-- The tree of a method: its body, then a move of its result. -/
def ofMethod (c : ClassDecl) (m : MethodDecl) (table : ClassTable) (arrays : ArrayLayout) :
    CompileM MethodTree := do
  let info ← table.find c.name
  let frame ← ClassTable.methodFrame c.name m
  let key := ClassTable.methodKey c.name m.name
  let scope := { key, class? := some info, frame, table, arrays }
  let body ← Stmt.lowerAll scope m.body
  let result ← (← m.result.lower scope).toExp
  let body := Stm.seqAll (body ++ [.move frame.resultAccess.toExp result])
  return { name := key, body := .stm body, frame, returns := true }

/-- The trees of all methods of a program, the main method first. -/
def ofProgram (program : Program) (table : ClassTable) : CompileM (List MethodTree) := do
  let arrays ← ArrayLayout.new
  let main ← ofMain program table arrays
  let methods ← (program.classes.flatMap fun c => c.methods.map (c, ·)).mapM fun entry =>
    ofMethod entry.1 entry.2 table arrays
  return main :: methods

end MethodTree

end TreeBackend
