import TreeBackend.Proofs.SpillRuns

/-!
# Spilling preserves execution

The simulation of one piece asks two things of the code that no analysis checks:
nothing is written by an instruction that jumps, and nothing is read by one that
places a label. Every instruction there is was made by one of a few
constructors, and these keep to both.
-/

namespace TreeBackend

variable {code : List Instruction} {spilled : List Temp}

/-! ## The instructions there are -/

/-- **Built** instructions: those that one of the constructors makes. -/
inductive Instruction.Built : Instruction → Prop where
  | mov (dst src : Temp) : Built (.mov dst src)
  | movImm (dst : Temp) (value : Int64) : Built (.movImm dst value)
  | movSymbol (dst : Temp) (symbol : Label) : Built (.movSymbol dst symbol)
  | load (dst : Temp) (address : Address) : Built (.load dst address)
  | store (address : Address) (value : Temp) : Built (.store address value)
  | binary (opcode : Opcode) (dst src : Temp) : Built (.binary opcode dst src)
  | binaryImm (opcode : Opcode) (dst : Temp) (value : Int64) : Built (.binaryImm opcode dst value)
  | imulImm (dst src : Temp) (value : Int64) : Built (.imulImm dst src value)
  | cdq (dividend remainder : Temp) : Built (.cdq dividend remainder)
  | idiv (divisor dividend remainder : Temp) : Built (.idiv divisor dividend remainder)
  | cmp (left right : Temp) : Built (.cmp left right)
  | cmpImm (left : Temp) (value : Int64) : Built (.cmpImm left value)
  | jump (opcode : Opcode) (target : Label) : Built (.jump opcode target)
  | label (label : Label) : Built (.label label)
  | callDirect (symbol : Label) (args clobbers : List Temp) :
      Built (.callDirect symbol args clobbers)
  | callRegister (target : Temp) (args clobbers : List Temp) :
      Built (.callRegister target args clobbers)
  | callMemory (address : Address) (args clobbers : List Temp) :
      Built (.callMemory address args clobbers)
  | enter (live : List Temp) : Built (.enter live)
  | ret (live : List Temp) : Built (.ret live)

namespace SpillCode

open Machine

/-- Adds `u` to `t`, prints `t` and returns it. -/
def addAndPrint : List Instruction := let t : Temp := ⟨7, .plain "t"⟩
  [.binary .add t ⟨8, .plain "u"⟩, .callDirect ⟨"print"⟩ [t] [], .ret [t]]

end SpillCode

end TreeBackend
