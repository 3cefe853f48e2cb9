import TreeBackend.Session.Basic

/-!
# Canonical trees

In a **canonical** statement no statement hides inside an expression, and a
call stands only by itself or as the source of a move into a temp. The machine
can evaluate such expressions without regard to what runs in between.

`Stm.canonicalize` brings any statement into this form. It splits every
expression into *effects*, statements to run first, and a *value* to take
afterwards (`Staged`). Operands are split from left to right and then put in order
(`Ordered`): when a later operand has effects, an earlier value that they might
change is first moved into a holder. Holders are drawn from right to left.
-/

namespace TreeBackend

namespace Exp

/-- Whether the expression is free of calls and of hidden statements. -/
def isPure : Exp → Bool
  | const _ | name _ | temp _ => true
  | binop _ l r => l.isPure && r.isPure
  | not e | mem e => e.isPure
  | call .. | eseq .. => false

/-- Whether the expression is a **canonical source**: pure, or a call of pure
operands. -/
def isCanonicalSource : Exp → Bool
  | call f args => f.isPure && args.all isPure
  | e => e.isPure

end Exp

/-- Whether a statement is **canonical**. Only a move into a temp may have a
call for its source; whether a destination can be assigned at all is not asked. -/
def Stm.isCanonical : Stm → Bool
  | .move (.temp _) src => src.isCanonicalSource
  | .move dst src => dst.isPure && src.isPure
  | .exp e => e.isCanonicalSource
  | .cjump _ l r _ => l.isPure && r.isPure
  | .jump _ | .label _ => true
  | .seq a b => a.isCanonical && b.isCanonical

/-- An expression in two parts: statements to run, then a value to take. -/
structure Staged where
  effects : List Stm
  value : Exp

namespace Staged

/-- A value that needs no statements. -/
def ofValue (value : Exp) : Staged := ⟨[], value⟩

/-- Whether statements have to run before the value is taken. -/
def hasEffects (p : Staged) : Bool := !p.effects.isEmpty

/-- The same parts with the value changed. -/
def mapValue (f : Exp → Exp) (p : Staged) : Staged := ⟨p.effects, f p.value⟩

/-- Keep the value in a new **holder**, as the last of the effects. -/
def hold (p : Staged) : SessionM Staged := do
  let holder ← Session.newHolder
  return ⟨p.effects ++ [.move (.temp holder) p.value], .temp holder⟩

/-- Hold the value if operands evaluated later have effects and the value does
not commute with them. -/
def protect (laterEffects : Bool) (p : Staged) : SessionM Staged :=
  if laterEffects && !p.value.commutes then p.hold else pure p

/-- Protect each operand from the effects of those after it, from right to
left. -/
def protectAll : List Staged → SessionM (List Staged)
  | [] => pure []
  | p :: ps => do
    let ps ← protectAll ps
    let p ← p.protect (ps.any hasEffects)
    return p :: ps

/-- The effects, then a statement that uses the value. -/
def andThen (p : Staged) (use : Exp → Stm) : Stm := Stm.seqAll (p.effects ++ [use p.value])

end Staged

/-- Operands in order: statements to run, then a value for each operand. -/
structure Ordered where
  effects : List Stm
  values : List Exp

namespace Ordered

/-- **Order** operands: each keeps its meaning across the effects of those after it. -/
def ofParts (parts : List Staged) : SessionM Ordered := do
  let parts ← Staged.protectAll parts
  return ⟨parts.flatMap Staged.effects, parts.map Staged.value⟩

/-- What is made of the last two values. -/
def pair {α : Type} (o : Ordered) (construct : Construct) (make : Exp → Exp → α) :
    Except Error (List Stm × α) :=
  match o.values.reverse with
  | right :: left :: _ => pure (o.effects, make left right)
  | _ => throw (.malformed (.lostOperands construct))

/-- The call of the first value with the others. -/
def call (o : Ordered) : Except Error Staged :=
  match o.values with
  | function :: args => pure ⟨o.effects, .call function args⟩
  | [] => throw (.malformed .callWithoutTarget)

end Ordered

mutual

/-- The **weight** of an expression. A statement weighs more inside an expression than in
front of it. -/
def Exp.weight : Exp → Nat
  | .const _ | .name _ | .temp _ => 1
  | .binop _ l r => l.weight + r.weight + 1
  | .not e | .mem e => e.weight + 1
  | .call f args => f.weight + Exp.weightAll args + 1
  | .eseq s e => s.weight + e.weight + 2

/-- The weight of expressions together. -/
def Exp.weightAll : List Exp → Nat
  | [] => 0
  | e :: es => e.weight + Exp.weightAll es

/-- The weight of a statement. -/
def Stm.weight : Stm → Nat
  | .move dst src => dst.weight + src.weight + 1
  | .exp e => e.weight + 1
  | .jump _ | .label _ => 1
  | .cjump _ l r _ => l.weight + r.weight + 1
  | .seq a b => a.weight + b.weight + 1

end

theorem Exp.weight_pos (e : Exp) : 0 < e.weight := by
  cases e <;> simp [weight]

mutual

/-- The parts of an expression, with a pure value: the result of a call is held. -/
def Exp.parts : Exp → CompileM Staged
  | .const n => pure (.ofValue (.const n))
  | .name l => pure (.ofValue (.name l))
  | .temp t => pure (.ofValue (.temp t))
  | .binop op l r => do
    let operands ← Ordered.ofParts (← Exp.partsAll [l, r])
    let (effects, value) ← operands.pair .operator (.binop op)
    return ⟨effects, value⟩
  | .not e => return (← e.parts).mapValue .not
  | .mem e => return (← e.parts).mapValue .mem
  | .call f args => do (← Exp.callParts f args).hold
  | .eseq s e => do
    let s ← s.canonicalize
    let p ← e.parts
    return ⟨(if s.isNop then [] else [s]) ++ p.effects, p.value⟩
termination_by e => 3 * e.weight
decreasing_by all_goals simp only [Exp.weight, Exp.weightAll]; omega

/-- The parts of each expression, from left to right. -/
def Exp.partsAll : List Exp → CompileM (List Staged)
  | [] => pure []
  | e :: es => do
    let p ← e.parts
    let ps ← Exp.partsAll es
    return p :: ps
termination_by es => 3 * Exp.weightAll es + 1
decreasing_by all_goals have := e.weight_pos; simp only [Exp.weightAll]; omega

/-- The parts of a call: its value is the call itself, with pure operands. -/
def Exp.callParts (f : Exp) (args : List Exp) : CompileM Staged := do
  let operands ← Ordered.ofParts (← Exp.partsAll (f :: args))
  operands.call
termination_by 3 * (f.weight + Exp.weightAll args) + 2
decreasing_by simp only [Exp.weightAll]; omega

/-- The **canonical form** of a statement. The effects of a destination come first: a move
into `eseq s dst` is `s`, then a move into `dst`. -/
def Stm.canonicalize : Stm → CompileM Stm
  | .seq a b => return Stm.seqAll [← a.canonicalize, ← b.canonicalize]
  | .jump l => pure (.jump l)
  | .label l => pure (.label l)
  | .exp (.call f args) => return (← Exp.callParts f args).andThen .exp
  | .exp e => do
    let p ← e.parts
    return Stm.seqAll (p.effects ++ if p.value.isLeaf then [] else [.exp p.value])
  | .move (.temp t) (.call f args) => return (← Exp.callParts f args).andThen (.move (.temp t))
  | .move (.temp t) src => return (← src.parts).andThen (.move (.temp t))
  | .move (.mem address) src => do
    let operands ← Ordered.ofParts (← Exp.partsAll [address, src])
    let (effects, move) ← operands.pair .move fun address src => .move (.mem address) src
    return Stm.seqAll (effects ++ [move])
  | .move (.eseq s dst) src => (Stm.seq s (.move dst src)).canonicalize
  | .move dst _ => throw (.malformed (.notAssignable dst.kind))
  | .cjump rel l r target => do
    let operands ← Ordered.ofParts (← Exp.partsAll [l, r])
    let (effects, branch) ← operands.pair .branch fun l r => .cjump rel l r target
    return Stm.seqAll (effects ++ [branch])
termination_by s => 3 * s.weight
decreasing_by all_goals simp only [Stm.weight, Exp.weight, Exp.weightAll]; omega

end

/-- How many holders are drawn to bring the statement into canonical form. -/
def Stm.holdersDrawn (stm : Stm) (s : Session) : Nat :=
  (stm.canonicalize.run.run s).2.tempCount - s.tempCount

end TreeBackend
