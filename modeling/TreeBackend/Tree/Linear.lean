import TreeBackend.Error

/-!
# Linear bodies

A body is **linear** when it is a list of plain statements – no sequences, and
no statement hidden in an expression – each of which does something.
-/

namespace TreeBackend

namespace Stm

/-- The plain statements of a statement, in the order they run in. -/
def flatten : Stm → List Stm
  | seq a b => a.flatten ++ b.flatten
  | s => [s]

/-- The expressions a plain statement evaluates. -/
def operands : Stm → List Exp
  | move dst src => [dst, src]
  | exp e => [e]
  | cjump _ l r _ => [l, r]
  | jump _ | label _ | seq .. => []

/-- Whether the statement only evaluates a constant, a name or a temp. -/
def isIdle : Stm → Bool
  | exp e => e.isLeaf
  | _ => false

/-- A plain statement without hidden statements, or the fault. -/
def checkPlain (s : Stm) : Except Error Unit :=
  if s.operands.any Exp.hasEseq then throw (.malformed (.hiddenStatement s.kind)) else pure ()

/-- The **linear form** of a statement: its plain statements in order, without
the idle ones. Fails at the first statement that hides another. -/
def linearize (s : Stm) : Except Error (List Stm) := do
  s.flatten.forM checkPlain
  return s.flatten.filter fun s => !s.isIdle

end Stm

end TreeBackend
