import TreeBackend.Alloc.Coloring
import TreeBackend.Alloc.Spill

/-!
# Register allocation

Allocation colours the interference graph of the code. As long as temps are
left without a colour it sends them to the frame and tries again on the longer
code. Temps that spill code drew are not sent to the frame a second time: a
round that leaves only those ends the loop, and so does the bound on the number
of rounds. Either way the last code and its colouring are the result.
-/

namespace TreeBackend

/-- Whether every temp found a register. -/
inductive AllocationStatus where
  | converged
  /-- Spilling stopped with temps left over. -/
  | exceeded (rounds : Nat) (uncolored : List Temp)
  deriving DecidableEq, Repr

/-- The final code of a method, and the registers of its temps. -/
structure Allocation where
  instructions : List Instruction
  colors : TempMap Nat
  /-- The temps that were sent to the frame, over all rounds. -/
  spilled : List Temp
  /-- The offset of each of their words from the frame pointer. -/
  slots : TempMap Int64
  /-- How many rounds of spilling there were. -/
  rounds : Nat
  status : AllocationStatus
  /-- The live sets of the final code. -/
  liveness : Liveness
  /-- The interference graph of the final code, with the colours of its nodes. -/
  interference : Interference
  /-- The temps that were made one in the final round. -/
  merges : List (Temp × Temp)

namespace Allocation

/-- Whether every temp found a register. -/
def converged (a : Allocation) : Bool :=
  match a.status with
  | .converged => true
  | .exceeded .. => false

/-- The error of an allocation that left temps over. -/
def error? (a : Allocation) (method : String) : Option Error :=
  match a.status with
  | .converged => none
  | .exceeded rounds uncolored => some (.unallocated method rounds uncolored.length)

/-- The register of a temp. -/
def registerOf? (a : Allocation) (t : Temp) : Option Register :=
  a.colors[t]?.bind Register.ofColor?

/-- A temp in allocated code: its register where it has one; the frame pointer
has a register of its own. -/
def tempName (colors : TempMap Nat) (t : Temp) : String :=
  if t.isFramePointer then "ebp"
  else ((colors[t]?.bind Register.ofColor?).map Register.name).getD t.display

/-- The text of an instruction with registers. -/
def renderInstruction (colors : TempMap Nat) (i : Instruction) : String :=
  i.renderWith (tempName colors)

/-- The listing of the final code with registers. -/
def listing (a : Allocation) : String :=
  String.join (a.instructions.map fun i =>
    Instruction.listingLine (renderInstruction a.colors i) i)

/-- What the rounds before the current one have done. -/
structure Progress where
  instructions : List Instruction
  frame : Frame
  spilled : List Temp := []
  slots : TempMap Int64 := ∅
  /-- The temps that spill code drew. -/
  spillTemps : TempSet := ∅
  rounds : Nat := 0

/-- What one round found out about the code. -/
structure Round where
  liveness : Liveness
  coloring : Coloring
  interference : Interference

/-- Colour the code as it stands. -/
def attempt (p : Progress) (registers : Nat) : CompileM Round := do
  let liveness ← Liveness.analyze p.instructions
  let (coloring, interference) :=
    (Interference.build p.instructions liveness registers).colorAvoiding registers p.spillTemps
  Session.count (·.addCoalesced coloring.merges.length)
  return { liveness, coloring, interference }

/-- The temps without a colour that are worth spilling. -/
def Round.candidates (r : Round) (p : Progress) : List Temp :=
  r.coloring.spilled.filter fun t => !p.spillTemps.contains t

/-- The allocation that ends with a round. -/
def finish (p : Progress) (r : Round) : SessionM Allocation := do
  let done := r.coloring.spilled.isEmpty
  unless done do Session.count Stats.addUnconverged
  return {
    instructions := p.instructions
    colors := r.coloring.colors
    spilled := p.spilled
    slots := p.slots
    rounds := p.rounds
    status := if done then .converged else .exceeded p.rounds r.coloring.spilled
    liveness := r.liveness
    interference := r.interference
    merges := r.coloring.merges }

/-- Spill temps and make ready for the next round. -/
def Progress.spill (p : Progress) (temps : List Temp) : SessionM Progress := do
  Session.count (·.addSpillRound temps.length)
  let (code, frame) ← SpillCode.ofCode p.instructions temps p.frame
  return {
    instructions := code.instructions
    frame
    spilled := p.spilled ++ temps
    slots := code.slots.foldl (fun slots t offset => slots.insert t offset) p.slots
    spillTemps := code.temps.foldl (fun set t => set.insert t) p.spillTemps
    rounds := p.rounds + 1 }

/-- Rounds of colouring and spilling, at most `bound` more of spilling. -/
def iterate (registers : Nat) : Nat → Progress → CompileM (Allocation × Frame)
  | bound, p => do
    let round ← attempt p registers
    let candidates := round.candidates p
    match bound with
    | 0 => return (← finish p round, p.frame)
    | bound + 1 =>
      if candidates.isEmpty then return (← finish p round, p.frame)
      else iterate registers bound (← p.spill candidates)

end Allocation

/-- **Allocate registers** for code, with the registers and the bound on spill
rounds that the session's configuration gives. Spilled temps go to the frame. -/
def allocate (code : List Instruction) (frame : Frame) : CompileM (Allocation × Frame) := do
  let config := (← get).config
  Allocation.iterate config.registers config.maxSpillRounds { instructions := code, frame }

end TreeBackend
