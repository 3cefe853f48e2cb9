import TreeBackend.Temp

/-!
# Trees

A method body is a tree. An *expression* computes a value, a *statement* has
an effect, and the two meet in both directions: a statement may evaluate an
expression, and an expression `eseq s e` runs a statement before its value is
taken. Constants are signed words.
-/

namespace TreeBackend

/-- An operator on two values. -/
inductive BinOp where
  | plus
  | minus
  | mul
  | mod
  | or
  | and
  deriving DecidableEq, Repr

namespace BinOp

/-- The operators, in the order they are listed in. -/
def all : List BinOp := [plus, minus, mul, mod, or, and]

/-- The operator's name in text. -/
def name : BinOp → String
  | plus => "plus"
  | minus => "minus"
  | mul => "mul"
  | mod => "mod"
  | or => "or"
  | and => "and"

/-- The operator of a name. -/
def ofName? (name : String) : Option BinOp := all.find? fun op => op.name == name

/-- Whether swapping the operands leaves the result unchanged. -/
def isSymmetric : BinOp → Bool
  | plus | mul | or | and => true
  | minus | mod => false

@[simp] theorem ofName?_name (op : BinOp) : ofName? op.name = some op := by
  cases op <;> decide

end BinOp

/-- A relation between two values. -/
inductive RelOp where
  | eq
  | neq
  | lt
  deriving DecidableEq, Repr

namespace RelOp

/-- The relations, in the order they are listed in. -/
def all : List RelOp := [eq, neq, lt]

/-- The relation's name in text. -/
def name : RelOp → String
  | eq => "eq"
  | neq => "neq"
  | lt => "lt"

/-- The relation of a name. -/
def ofName? (name : String) : Option RelOp := all.find? fun rel => rel.name == name

/-- Whether the relation holds between two numbers. -/
def holds (rel : RelOp) (left right : Int) : Bool :=
  match rel with
  | eq => left == right
  | neq => left != right
  | lt => left < right

@[simp] theorem ofName?_name (rel : RelOp) : ofName? rel.name = some rel := by
  cases rel <;> decide

end RelOp

mutual

/-- A tree that computes a value. -/
inductive Exp where
  /-- A constant. -/
  | const (value : Int64)
  /-- The address of a label. -/
  | name (label : Label)
  /-- The content of a temp. -/
  | temp (temp : Temp)
  /-- An operator applied to two values. -/
  | binop (op : BinOp) (left right : Exp)
  /-- The negation of a value that is 0 or 1. -/
  | not (operand : Exp)
  /-- The word at an address. -/
  | mem (address : Exp)
  /-- The result of a call. -/
  | call (function : Exp) (args : List Exp)
  /-- The value of an expression after a statement has run. -/
  | eseq (effect : Stm) (value : Exp)

/-- A tree that has an effect. -/
inductive Stm where
  /-- Store a value in a temp or in memory. -/
  | move (dst src : Exp)
  /-- Evaluate an expression and drop its value. -/
  | exp (e : Exp)
  /-- Continue at a label. -/
  | jump (target : Label)
  /-- Continue at a label when the relation holds, with what follows otherwise. -/
  | cjump (rel : RelOp) (left right : Exp) (target : Label)
  /-- Mark a place in the code. -/
  | label (label : Label)
  /-- Run one statement after another. -/
  | seq (first second : Stm)

end

namespace Exp

/-- The shapes of an expression. -/
inductive Kind where
  | const
  | name
  | temp
  | binop
  | not
  | mem
  | call
  | eseq
  deriving DecidableEq, Repr

namespace Kind

/-- The shapes, in the order they are listed in. -/
def all : List Kind := [const, name, temp, binop, not, mem, call, eseq]

/-- The shape's keyword in text. -/
def keyword : Kind → String
  | const => "const"
  | name => "name"
  | temp => "temp"
  | binop => "binop"
  | not => "not"
  | mem => "mem"
  | call => "call"
  | eseq => "eseq"

/-- The shape of a keyword. -/
def ofKeyword? (keyword : String) : Option Kind := all.find? fun kind => kind.keyword == keyword

@[simp] theorem ofKeyword?_keyword (kind : Kind) : ofKeyword? kind.keyword = some kind := by
  cases kind <;> decide

end Kind

/-- The shape of an expression. -/
def kind : Exp → Kind
  | const _ => .const
  | name _ => .name
  | temp _ => .temp
  | binop .. => .binop
  | not _ => .not
  | mem _ => .mem
  | call .. => .call
  | eseq .. => .eseq

/-- The sum of two values. -/
abbrev plus (left right : Exp) : Exp := binop .plus left right

/-- Whether the expression is a **leaf** – a constant, a name or a temp – and
so counts as safe to evaluate before or after any statement. -/
def isLeaf : Exp → Bool
  | const _ | name _ | temp _ => true
  | _ => false

/-- Whether the expression **commutes** with the statements around it: a leaf,
or a memory read whose address commutes. -/
def commutes : Exp → Bool
  | mem address => address.commutes
  | e => e.isLeaf

mutual

/-- Whether a statement hides anywhere inside the expression. -/
def hasEseq : Exp → Bool
  | const _ | name _ | temp _ => false
  | binop _ l r => l.hasEseq || r.hasEseq
  | not e | mem e => e.hasEseq
  | call f args => f.hasEseq || hasEseqAny args
  | eseq .. => true

/-- Whether a statement hides inside one of the expressions. -/
def hasEseqAny : List Exp → Bool
  | [] => false
  | e :: es => e.hasEseq || hasEseqAny es

end

end Exp

namespace Stm

/-- The shapes of a statement. -/
inductive Kind where
  | move
  | exp
  | jump
  | cjump
  | label
  | seq
  deriving DecidableEq, Repr

namespace Kind

/-- The shapes, in the order they are listed in. -/
def all : List Kind := [move, exp, jump, cjump, label, seq]

/-- The shape's keyword in text. -/
def keyword : Kind → String
  | move => "move"
  | exp => "exp"
  | jump => "jump"
  | cjump => "cjump"
  | label => "label"
  | seq => "seq"

/-- The shape of a keyword. -/
def ofKeyword? (keyword : String) : Option Kind := all.find? fun kind => kind.keyword == keyword

@[simp] theorem ofKeyword?_keyword (kind : Kind) : ofKeyword? kind.keyword = some kind := by
  cases kind <;> decide

end Kind

/-- The shape of a statement. -/
def kind : Stm → Kind
  | move .. => .move
  | exp _ => .exp
  | jump _ => .jump
  | cjump .. => .cjump
  | label _ => .label
  | seq .. => .seq

/-- The statement without effect that stands for an empty body. -/
def nop : Stm := exp (.const 0)

/-- Whether the statement only evaluates a constant. -/
def isNop : Stm → Bool
  | exp (.const _) => true
  | _ => false

/-- Statements one after another, nested to the right. -/
def chain : List Stm → Stm
  | [] => nop
  | [s] => s
  | s :: rest => seq s (chain rest)

/-- **Sequence** of statements: those that only evaluate a constant are left
out, and nothing at all is `Stm.nop`. -/
def seqAll (stms : List Stm) : Stm := chain (stms.filter fun s => !s.isNop)

/-- Where a jump or a branch leads. -/
def target? : Stm → Option Label
  | jump l => some l
  | cjump _ _ _ l => some l
  | _ => none

/-- Whether the statement is a jump or a branch. -/
def isJump (s : Stm) : Bool := s.target?.isSome

/-- The label a statement places, if it places one. -/
def placed? : Stm → Option Label
  | label l => some l
  | _ => none

end Stm

end TreeBackend
