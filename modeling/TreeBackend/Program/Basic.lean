/-!
# MiniJava programs

The shape of a checked program: a main class, and classes with fields and
methods. Types are gone; a call names the class whose method table is to be
used. Identifiers are any strings.
-/

namespace TreeBackend

namespace Program

/-- An operator on two operands. -/
inductive Operator where
  | add
  | sub
  | mul
  | mod
  | lt
  | and
  | or
  deriving DecidableEq, Repr

/-- An expression of a program. -/
inductive Expr where
  | int (value : Int64)
  | bool (value : Bool)
  | ident (name : String)
  | this
  | binary (op : Operator) (left right : Expr)
  | not (operand : Expr)
  | index (array index : Expr)
  | length (array : Expr)
  /-- A call of a method of the receiver's class. -/
  | call (receiver : Expr) (className method : String) (args : List Expr)
  | newArray (length : Expr)
  | newObject (className : String)

/-- A statement of a program. -/
inductive Stmt where
  | block (body : List Stmt)
  | ite (condition : Expr) (whenTrue whenFalse : Stmt)
  | while (condition : Expr) (body : Stmt)
  | print (value : Expr)
  | assign (name : String) (value : Expr)
  | arrayAssign (name : String) (index value : Expr)

/-- A method of a class. -/
structure MethodDecl where
  name : String
  params : List String
  locals : List String
  body : List Stmt
  result : Expr

/-- A class. -/
structure ClassDecl where
  name : String
  parent? : Option String
  fields : List String
  methods : List MethodDecl

end Program

/-- A program. -/
structure Program where
  /-- The name of the main class. -/
  mainName : String
  /-- The body of the main method. -/
  mainBody : List Program.Stmt
  classes : List Program.ClassDecl

end TreeBackend
