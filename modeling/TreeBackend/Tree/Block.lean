import TreeBackend.Session.Basic

/-!
# Basic blocks

A linear body is cut into **blocks**, straight runs of statements that start at
a label and end in a jump. A block that would run into the next label gets an
explicit jump to it, and so does a block that ends in a branch. Laid out again
in the same order, blocks lose the jumps that only lead to the block after
them, and then every label that nothing jumps to.
-/

namespace TreeBackend

/-- A straight run of statements. -/
structure Block where
  stms : List Stm

namespace Block

/-- The label that the block starts with. -/
def entry? (b : Block) : Option Label := b.stms.head?.bind Stm.placed?

/-- The label that the block's last statement jumps to. -/
def exit? (b : Block) : Option Label := b.stms.getLast?.bind Stm.target?

/-- The jump that joins a branch to what follows it; a jump needs none. -/
def bridge (s : Stm) (next : Label) : List Stm :=
  match s with
  | .cjump .. => [.jump next]
  | _ => []

/-- Cut a linear body into blocks, `current` being what the block under
construction holds so far. -/
def cutFrom (current : List Stm) : List Stm → SessionM (List Block)
  | [] => return if current.isEmpty then [] else [⟨current⟩]
  | .label l :: rest => do
    let blocks ← cutFrom [.label l] rest
    return (if current.isEmpty then [] else [⟨current ++ [.jump l]⟩]) ++ blocks
  | s :: rest =>
    if s.isJump then
      match rest with
      | [] => return [⟨current ++ [s]⟩]
      | .label next :: _ => do
        let blocks ← cutFrom [] rest
        return ⟨current ++ s :: bridge s next⟩ :: blocks
      | _ :: _ => do
        let fresh ← Session.freshLabel
        let blocks ← cutFrom [.label fresh] rest
        return ⟨current ++ s :: bridge s fresh⟩ :: blocks
    else cutFrom (current ++ [s]) rest

/-- The **blocks** of a linear body, in order. Code after a jump that carries
no label of its own is given a fresh one. -/
def cut (stms : List Stm) : SessionM (List Block) := cutFrom [] stms

/-- The statements of a block, without a final jump to the block that follows. -/
def withoutFallthrough (b : Block) (next? : Option Label) : List Stm :=
  match b.stms.getLast?, next? with
  | some (.jump l), some next => if l = next then b.stms.dropLast else b.stms
  | _, _ => b.stms

/-- The blocks one after another, without jumps to the block that follows. -/
def join : List Block → List Stm
  | [] => []
  | b :: rest => b.withoutFallthrough (rest.head?.bind entry?) ++ join rest

/-- Take out the labels that nothing jumps to. -/
def dropUnusedLabels (stms : List Stm) : List Stm :=
  let used := stms.filterMap Stm.target?
  stms.filter fun s =>
    match s.placed? with
    | some l => l ∈ used
    | none => true

/-- The blocks as a linear body again. -/
def layout (blocks : List Block) : List Stm := dropUnusedLabels (join blocks)

/-- Check that every jump leads to a label, and that no label is placed twice;
a repeated label is the fault that comes first. Of several, `pick` says which one is
named. -/
def checkTargetsBy (pick : List Label → Option Label) (stms : List Stm) : Except Error Unit :=
  let placed := stms.filterMap Stm.placed?
  match pick placed with
  | some l => throw (.malformed (.labelInBlocksTwice l))
  | none =>
    match (stms.filterMap Stm.target?).find? (· ∉ placed) with
    | some l => throw (.undefinedLabel l)
    | none => pure ()

/-- Check the jumps, and name the label that is repeated first. -/
def checkTargets : List Stm → Except Error Unit := checkTargetsBy (Label.firstRepeated [])

/-- Cut a linear body into blocks, lay them out again, and check the jumps; `pick` says
which repeated label is named. -/
def reblockBy (pick : List Label → Option Label) (stms : List Stm) : CompileM (List Stm) := do
  let blocks ← cut stms
  let stms := layout blocks
  checkTargetsBy pick stms
  return stms

/-- Cut a linear body into blocks, lay them out again, and check the jumps. -/
def reblock : List Stm → CompileM (List Stm) := reblockBy (Label.firstRepeated [])

end Block

end TreeBackend
