import TreeBackend.Session.Basic

/-!
# Fragments

Whoever lowers a piece of a program does not know yet what it will be used for:
its value, its effect, or a branch. A **fragment** records what was built and
takes the wanted form on demand. A comparison in particular stays undecided
until it either becomes a branch, or a value of 0 or 1.
-/

namespace TreeBackend

/-- A lowered piece of a program. -/
inductive Fragment where
  /-- A tree with a value. -/
  | exp (e : Exp)
  /-- A tree with an effect only. -/
  | stm (s : Stm)
  /-- A comparison that is not yet a branch or a value. -/
  | cond (rel : RelOp) (left right : Exp)

namespace Fragment

/-- The role a fragment plays by itself. -/
def role : Fragment → Role
  | exp _ => .expression
  | stm _ => .statement
  | cond .. => .conditional

/-- The tree of the fragment's **value**. A comparison becomes 0 or 1 in a temp;
a statement has no value. -/
def toExp : Fragment → CompileM Exp
  | exp e => pure e
  | stm _ => throw (.roleMismatch .expression .statement)
  | cond rel left right => do
    let result ← Session.newTemp "cond"
    let whenTrue ← Session.freshLabel
    let whenFalse ← Session.freshLabel
    let done ← Session.freshLabel
    let body := Stm.seqAll
      [.cjump rel left right whenTrue,
        .label whenFalse,
        .move (.temp result) (.const 0),
        .jump done,
        .label whenTrue,
        .move (.temp result) (.const 1),
        .label done]
    return .eseq body (.temp result)

/-- The tree of the fragment's **effect**: both sides of a comparison are
evaluated. -/
def toStm : Fragment → Stm
  | exp e => .exp e
  | stm s => s
  | cond _ left right => .seq (.exp left) (.exp right)

/-- A **branch** to `target`: with `eq` it is taken when the fragment is true,
with `neq` when it is not. There is no greater-or-equal, so the opposite of
less-than branches around a jump. -/
def toBranch (rel : RelOp) (target : Label) : Fragment → CompileM Stm
  | exp e => pure (.cjump rel e (.const 1) target)
  | stm _ => throw (.roleMismatch .conditional .statement)
  | cond inner left right =>
    match rel, inner with
    | .eq, _ => pure (.cjump inner left right target)
    | .neq, .eq => pure (.cjump .neq left right target)
    | .neq, .neq => pure (.cjump .eq left right target)
    | .neq, .lt => do
      let skip ← Session.freshLabel
      return Stm.seqAll [.cjump .lt left right skip, .jump target, .label skip]
    | .lt, _ => throw (.malformed .polarity)

end Fragment

end TreeBackend
