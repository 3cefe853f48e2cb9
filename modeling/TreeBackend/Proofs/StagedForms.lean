import TreeBackend.Proofs.SuccessfulRuns
import TreeBackend.Tree.Canonical

/-!
# Canonical forms by recursion on trees

To put operands in order, canonicalization collects them in a list and then takes them out
again, and a move into `eseq s dst` it feeds to itself as a sequence. The recursion of this
module goes over the tree alone: it knows two operands as two and a call by its function, and
it has no error but the one about destinations. The equations below say that it is the same
computation. What is taken out of a list is what was put in, so nothing is lost there.
-/

namespace TreeBackend

namespace Staged

/-- Hold a call: its result is a value only once it is in a temp. -/
def holdCall (p : Staged) : SessionM Staged := match p.value with
  | .call .. => p.hold
  | _ => pure p

/-- Two operands under one constructor, the left protected from the right. -/
def combine (make : Exp → Exp → Exp) (l r : Staged) : SessionM Staged := do
  let l ← l.protect r.hasEffects
  return ⟨l.effects ++ r.effects, make l.value r.value⟩

/-- A call whose function and arguments are protected from one another. -/
def combineCall (f : Staged) (args : List Staged) : SessionM Staged := do
  let args ← protectAll args
  let f ← f.protect (args.any hasEffects)
  return ⟨f.effects ++ args.flatMap effects, .call f.value (args.map value)⟩

end Staged

mutual

/-- The parts of an expression; the value of a call is the call itself, with
pure operands, and every other value is pure. -/
def Exp.stage : Exp → CompileM Staged
  | .const n => pure (.ofValue (.const n))
  | .name l => pure (.ofValue (.name l))
  | .temp t => pure (.ofValue (.temp t))
  | .binop op l r => do
    let l ← (← l.stage).holdCall
    let r ← (← r.stage).holdCall
    l.combine (.binop op) r
  | .not e => return (← (← e.stage).holdCall).mapValue .not
  | .mem e => return (← (← e.stage).holdCall).mapValue .mem
  | .call f args => do
    let f ← (← f.stage).holdCall
    let args ← Exp.stageAll args
    f.combineCall args
  | .eseq s e => do
    let s ← s.canonicalize
    let p ← (← e.stage).holdCall
    return ⟨(if s.isNop then [] else [s]) ++ p.effects, p.value⟩

/-- The parts of each expression, from left to right, with pure values. -/
def Exp.stageAll : List Exp → CompileM (List Staged)
  | [] => pure []
  | e :: es => do
    let p ← (← e.stage).holdCall
    let ps ← Exp.stageAll es
    return p :: ps

end

/-- The parts of an expression with a pure value: a call is held. -/
def Exp.stagePure (e : Exp) : CompileM Staged := do
  let p ← e.stage
  p.holdCall

/-- A move into `dst` of the value that `src` stages. The destination's own
effects run first. -/
def Exp.moveInto : Exp → CompileM Staged → CompileM Stm
  | .temp t, src => return (← src).andThen (.move (.temp t))
  | .mem address, src => do
    let address ← (← address.stage).holdCall
    let value ← (← src).holdCall
    let address ← address.protect value.hasEffects
    return Stm.seqAll (address.effects ++ value.effects ++ [.move (.mem address.value) value.value])
  | .eseq s dst, src => do
    let s ← s.canonicalize
    let rest ← dst.moveInto src
    return Stm.seqAll [s, rest]
  | .const _, _ => throw (.malformed (.notAssignable .const))
  | .name _, _ => throw (.malformed (.notAssignable .name))
  | .binop .., _ => throw (.malformed (.notAssignable .binop))
  | .not _, _ => throw (.malformed (.notAssignable .not))
  | .call .., _ => throw (.malformed (.notAssignable .call))

/-! ## Operands in a list -/

namespace Ordered

/-- Of two operands, only the first can be in need of protection. -/
theorem ofParts_pair (p q : Staged) : ofParts [p, q] = do
    let p ← p.protect q.hasEffects
    return ⟨p.effects ++ q.effects, [p.value, q.value]⟩ := by
  have hlast : Staged.protectAll [q] = pure [q] := rfl
  rw [ofParts, Staged.protectAll, hlast]
  simp [Staged.hasEffects]

theorem ofParts_cons (p : Staged) (ps : List Staged) : ofParts (p :: ps) = do
    let ps ← Staged.protectAll ps
    let p ← p.protect (ps.any Staged.hasEffects)
    return ⟨p.effects ++ ps.flatMap Staged.effects, p.value :: ps.map Staged.value⟩ := by
  simp [ofParts, Staged.protectAll]

end Ordered

/-- Two expressions that are put into a list come out of it as they went in. -/
theorem Exp.pair_partsAll {α : Type} (l r : Exp) (construct : Construct) (make : Exp → Exp → α) :
    (do let o ← Ordered.ofParts (← Exp.partsAll [l, r])
        o.pair construct make : CompileM (List Stm × α)) = do
      let l ← l.parts
      let r ← r.parts
      let l ← l.protect r.hasEffects
      return (l.effects ++ r.effects, make l.value r.value) := by
  simp [Exp.partsAll, Ordered.ofParts_pair, Ordered.pair]

/-- The list of a call's operands starts with its function. -/
theorem Exp.callParts_eq (f : Exp) (args : List Exp) : Exp.callParts f args = (do
      let f ← f.parts
      let args ← Exp.partsAll args
      f.combineCall args) := by
  simp [Exp.callParts, Exp.partsAll, Ordered.ofParts_cons, Ordered.call, Staged.combineCall]

/-! ## The parts of an expression -/

namespace Staged

/-- What is held is no call any more, whatever effects come before it. -/
theorem holdCall_bind_holdCall (p : Staged) (before : List Stm) :
    (do let q ← p.holdCall
        holdCall ⟨before ++ q.effects, q.value⟩ : CompileM Staged) = do
      let q ← p.holdCall
      return ⟨before ++ q.effects, q.value⟩ := by
  cases p with
  | mk effects value => cases value <;> rfl

end Staged

namespace Exp

mutual

/-- The two recursions find the same parts of an expression. -/
theorem parts_eq : (e : Exp) → e.parts = e.stagePure
  | .const _ | .name _ | .temp _ => by
    simp [parts, stagePure, stage, Staged.holdCall, Staged.ofValue]
  | .binop op l r => by
    have hpair := congrArg (· >>= fun p => pure (Staged.mk p.1 p.2))
      (pair_partsAll l r .operator (.binop op))
    simp only [parts_eq l, parts_eq r] at hpair
    simpa [parts, stagePure, stage, Staged.combine, Staged.holdCall] using hpair
  | .not e | .mem e => by
    simp [parts, parts_eq e, stagePure, stage, Staged.holdCall, Staged.mapValue]
  | .call f args => by
    simp [parts, callParts_eq, parts_eq f, partsAll_eq args, stagePure, stage, Staged.combineCall,
      Staged.holdCall]
  | .eseq s e => by
    simp [parts, parts_eq e, stagePure, stage, Staged.holdCall_bind_holdCall]

/-- The two recursions find the same parts of each expression. -/
theorem partsAll_eq : (es : List Exp) → partsAll es = stageAll es
  | [] => by simp [partsAll, stageAll]
  | e :: es => by simp [partsAll, stageAll, parts_eq e, partsAll_eq es, stagePure]

end

/-- The parts of a call are those found for it where it is not held. -/
theorem callParts_eq_stage (f : Exp) (args : List Exp) :
    callParts f args = (call f args).stage := by
  simp [callParts_eq, parts_eq, partsAll_eq, stagePure, stage]

/-- Only a call needs to be held. -/
theorem stagePure_of_not_call {e : Exp} (h : ∀ f args, e ≠ call f args) :
    e.stagePure = e.stage := by
  cases e with
  | const | name | temp => simp [stagePure, stage, Staged.holdCall, Staged.ofValue]
  | binop => simp [stagePure, stage, Staged.combine, Staged.holdCall]
  | not | mem => simp [stagePure, stage, Staged.holdCall, Staged.mapValue]
  | call f args => exact absurd rfl (h f args)
  | eseq => simp [stagePure, stage, Staged.holdCall_bind_holdCall]

end Exp

/-! ## Canonical forms of statements -/

namespace Stm

theorem canonicalize_seq (a b : Stm) :
    (seq a b).canonicalize = return seqAll [← a.canonicalize, ← b.canonicalize] := by
  rw [canonicalize]

theorem canonicalize_exp (e : Exp) : (exp e).canonicalize = do
    let p ← e.stage
    return seqAll (p.effects ++ if p.value.isLeaf then [] else [exp p.value]) := by
  by_cases h : ∃ f args, e = .call f args
  · obtain ⟨f, args, rfl⟩ := h
    simp [canonicalize, Exp.callParts_eq_stage, Exp.stage, Staged.combineCall, Staged.andThen,
      Exp.isLeaf]
  · have hcall : ∀ f args, e ≠ .call f args := fun f args he => h ⟨f, args, he⟩
    rw [canonicalize, Exp.parts_eq, Exp.stagePure_of_not_call hcall]
    exact hcall

/-- Feeding a move into `eseq s dst` back as a sequence comes to the recursion on the
destination: its weight goes down each time. -/
theorem canonicalize_move : (dst src : Exp) → (move dst src).canonicalize = dst.moveInto src.stage
  | .temp t, src => by
    by_cases h : ∃ f args, src = .call f args
    · obtain ⟨f, args, rfl⟩ := h
      rw [canonicalize, Exp.callParts_eq_stage, Exp.moveInto]
    · have hcall : ∀ f args, src ≠ .call f args := fun f args he => h ⟨f, args, he⟩
      rw [canonicalize, Exp.parts_eq, Exp.stagePure_of_not_call hcall, Exp.moveInto]
      exact hcall
  | .mem address, src => by
    have hpair := congrArg (· >>= fun p => pure (seqAll (p.1 ++ [p.2])))
      (Exp.pair_partsAll address src .move fun address src => .move (.mem address) src)
    simp only [Exp.parts_eq] at hpair
    simpa [canonicalize, Exp.moveInto, Exp.stagePure] using hpair
  | .eseq s dst, src => by rw [canonicalize, canonicalize, canonicalize_move dst src, Exp.moveInto]
  | .const _, _ | .name _, _ | .binop .., _ | .not _, _ | .call .., _ => by
    simp [canonicalize, Exp.moveInto, Exp.kind]

theorem canonicalize_cjump (rel : RelOp) (l r : Exp) (target : Label) :
    (cjump rel l r target).canonicalize = do
      let l ← l.stagePure
      let r ← r.stagePure
      let l ← l.protect r.hasEffects
      return seqAll (l.effects ++ r.effects ++ [.cjump rel l.value r.value target]) := by
  have hpair := congrArg (· >>= fun p => pure (seqAll (p.1 ++ [p.2])))
    (Exp.pair_partsAll l r .branch fun l r => .cjump rel l r target)
  simp only [Exp.parts_eq] at hpair
  simpa [canonicalize] using hpair

end Stm

end TreeBackend
