import TreeBackend.Tree.Basic

/-!
# Instructions

An instruction keeps the temps it reads and the temps it writes in two lists,
`uses` and `defs`, and its operands refer to them by position. Analyses look at
the lists alone and never at text; replacing a temp in a list replaces it in
every operand that refers to it.
-/

namespace TreeBackend

/-- What an instruction does. -/
inductive Opcode where
  /-- Defines the temps that are live when a method is entered. -/
  | enter
  /-- Uses the temps that are live when a method returns. -/
  | ret
  | mov
  | load
  | store
  | add
  | sub
  | and
  | or
  | xor
  | imul
  | cdq
  | idiv
  | cmp
  | jmp
  | je
  | jne
  | jl
  | jg
  | call
  | label
  deriving DecidableEq, Repr

namespace Opcode

/-- The opcodes, in the order they are listed in. -/
def all : List Opcode :=
  [enter, ret, mov, load, store, add, sub, and, or, xor, imul, cdq, idiv, cmp, jmp, je, jne, jl, jg,
    call, label]

/-- The opcode's name in assembly text. -/
def mnemonic : Opcode → String
  | enter => "enter"
  | ret => "ret"
  | mov => "mov"
  | load => "load"
  | store => "store"
  | add => "add"
  | sub => "sub"
  | and => "and"
  | or => "or"
  | xor => "xor"
  | imul => "imul"
  | cdq => "cdq"
  | idiv => "idiv"
  | cmp => "cmp"
  | jmp => "jmp"
  | je => "je"
  | jne => "jne"
  | jl => "jl"
  | jg => "jg"
  | call => "call"
  | label => "label"

/-- The opcode of a mnemonic. -/
def ofMnemonic? (mnemonic : String) : Option Opcode := all.find? fun op => op.mnemonic == mnemonic

/-- Whether control may go on with the next instruction. -/
def fallsThrough : Opcode → Bool
  | jmp | ret => false
  | _ => true

/-- Whether the opcode is a jump that may not be taken. -/
def isBranch : Opcode → Bool
  | je | jne | jl | jg => true
  | _ => false

end Opcode

/-- An operand of an instruction. -/
inductive Operand where
  /-- The temp at a position of `defs`. -/
  | defAt (index : Nat)
  /-- The temp at a position of `uses`. -/
  | useAt (index : Nat)
  /-- A constant. -/
  | imm (value : Int64)
  /-- The memory at a displacement from the temp at a position of `uses`; at an
  absolute address when there is no base. -/
  | mem (base? : Option Nat) (disp : Int64)
  /-- The label at a position of `targets`. -/
  | targetAt (index : Nat)
  /-- A label, for its address. -/
  | symbol (label : Label)
  deriving DecidableEq, Repr

/-- A **memory operand** by its parts: a base, if there is one, and a
displacement. -/
structure Address where
  base? : Option Temp
  disp : Int64
  deriving DecidableEq, Repr

/-- An instruction. -/
structure Instruction where
  opcode : Opcode
  operands : List Operand := []
  /-- The temps the instruction reads. -/
  uses : List Temp := []
  /-- The temps the instruction writes. -/
  defs : List Temp := []
  /-- The labels the instruction may jump to. -/
  targets : List Label := []
  /-- Whether the instruction is a copy that colouring may make superfluous. -/
  isCopy : Bool := false
  deriving DecidableEq, Repr

namespace Instruction

/-- The operand for an address whose base, if there is one, stands at position
`index` of `uses`. -/
def memOperand (address : Address) (index : Nat) : Operand :=
  .mem (address.base?.map fun _ => index) address.disp

/-- Copy a temp: `mov dst, src`. -/
def mov (dst src : Temp) : Instruction where
  opcode := .mov
  operands := [.defAt 0, .useAt 0]
  uses := [src]
  defs := [dst]
  isCopy := true

/-- Set a temp to a constant: `mov dst, value`. -/
def movImm (dst : Temp) (value : Int64) : Instruction where
  opcode := .mov
  operands := [.defAt 0, .imm value]
  defs := [dst]

/-- Set a temp to the address of a label: `mov dst, symbol`. -/
def movSymbol (dst : Temp) (symbol : Label) : Instruction where
  opcode := .mov
  operands := [.defAt 0, .symbol symbol]
  defs := [dst]

/-- Read memory: `load dst, [base + disp]`. -/
def load (dst : Temp) (address : Address) : Instruction where
  opcode := .load
  operands := [.defAt 0, memOperand address 0]
  uses := address.base?.toList
  defs := [dst]

/-- Write memory: `store [base + disp], value`. -/
def store (address : Address) (value : Temp) : Instruction where
  opcode := .store
  operands := [memOperand address 1, .useAt 0]
  uses := value :: address.base?.toList

/-- Combine a temp with another: `op dst, src` reads both and writes `dst`. -/
def binary (opcode : Opcode) (dst src : Temp) : Instruction where
  opcode
  operands := [.defAt 0, .useAt 1]
  uses := [dst, src]
  defs := [dst]

/-- Combine a temp with a constant: `op dst, value`. -/
def binaryImm (opcode : Opcode) (dst : Temp) (value : Int64) : Instruction where
  opcode
  operands := [.defAt 0, .imm value]
  uses := [dst]
  defs := [dst]

/-- Multiply by a constant: `imul dst, src, value`. -/
def imulImm (dst src : Temp) (value : Int64) : Instruction where
  opcode := .imul
  operands := [.defAt 0, .useAt 0, .imm value]
  uses := [src]
  defs := [dst]

/-- Extend the sign of the dividend into the temp that will hold the remainder. -/
def cdq (dividend remainder : Temp) : Instruction where
  opcode := .cdq
  uses := [dividend]
  defs := [remainder]

/-- Divide the pair of dividend and remainder: quotient and remainder replace
them. -/
def idiv (divisor dividend remainder : Temp) : Instruction where
  opcode := .idiv
  operands := [.useAt 0]
  uses := [divisor, dividend, remainder]
  defs := [dividend, remainder]

/-- Compare two temps. -/
def cmp (left right : Temp) : Instruction where
  opcode := .cmp
  operands := [.useAt 0, .useAt 1]
  uses := [left, right]

/-- Compare a temp with a constant. -/
def cmpImm (left : Temp) (value : Int64) : Instruction where
  opcode := .cmp
  operands := [.useAt 0, .imm value]
  uses := [left]

/-- Jump, or branch on the last comparison, to a label. -/
def jump (opcode : Opcode) (target : Label) : Instruction where
  opcode
  operands := [.targetAt 0]
  targets := [target]

/-- Mark a place in the code. -/
def label (label : Label) : Instruction where
  opcode := .label
  operands := [.symbol label]

/-- Call the code at a label. The clobbered temps lose their content. -/
def callDirect (symbol : Label) (args clobbers : List Temp) : Instruction where
  opcode := .call
  operands := [.symbol symbol]
  uses := args
  defs := clobbers

/-- Call the code whose address is in a temp. -/
def callRegister (target : Temp) (args clobbers : List Temp) : Instruction where
  opcode := .call
  operands := [.useAt 0]
  uses := target :: args
  defs := clobbers

/-- Call the code whose address is in memory. -/
def callMemory (address : Address) (args clobbers : List Temp) : Instruction where
  opcode := .call
  operands := [memOperand address 0]
  uses := address.base?.toList ++ args
  defs := clobbers

/-- Enter a method with `live` defined. -/
def enter (live : List Temp) : Instruction where
  opcode := .enter
  defs := live

/-- Return from a method with `live` in use. -/
def ret (live : List Temp) : Instruction where
  opcode := .ret
  uses := live

/-- The label an instruction places, if it places one. -/
def label? (i : Instruction) : Option Label :=
  match i.opcode, i.operands with
  | .label, .symbol l :: _ => some l
  | _, _ => none

/-- Read `new` wherever the instruction read `old`. -/
def renameUses (old new : Temp) (i : Instruction) : Instruction :=
  { i with uses := i.uses.map fun t => if t = old then new else t }

/-- Write `new` wherever the instruction wrote `old`. -/
def renameDefs (old new : Temp) (i : Instruction) : Instruction :=
  { i with defs := i.defs.map fun t => if t = old then new else t }

/-- The text of an operand; a position that is out of range is shown as `?`. -/
def renderOperand (name : Temp → String) (i : Instruction) : Operand → String
  | .defAt k => (i.defs[k]?.map name).getD "?"
  | .useAt k => (i.uses[k]?.map name).getD "?"
  | .imm value => toString value
  | .mem none disp => s!"[{disp}]"
  | .mem (some b) disp =>
    let base := (i.uses[b]?.map name).getD "?"
    if disp = 0 then s!"[{base}]"
    else if disp < 0 then s!"[{base} - {disp.toInt.natAbs}]"
    else s!"[{base} + {disp}]"
  | .targetAt k => (i.targets[k]?.map Label.name).getD "?"
  | .symbol l => l.name

/-- The temps of a list, introduced by `title`; nothing when there are none. -/
def renderTemps (name : Temp → String) (title : String) (temps : List Temp) : String :=
  if temps.isEmpty then ""
  else s!"\t{title}:" ++ String.join (temps.map fun t => s!" {name t};")

/-- The text of an instruction in which `name` names the temps: operands, then
the temps used and the temps defined. A label is its name and a colon. -/
def renderWith (name : Temp → String) (i : Instruction) : String :=
  match i.label? with
  | some l => l.name ++ ":"
  | none =>
    i.opcode.mnemonic
      ++ (if i.operands.isEmpty then ""
          else " " ++ String.intercalate ", " (i.operands.map (i.renderOperand name)))
      ++ renderTemps name "Used" i.uses
      ++ renderTemps name "Defined" i.defs

/-- The text of an instruction with symbolic temps. -/
def render (i : Instruction) : String := i.renderWith Temp.display

/-- A line of a listing: all but labels are indented by four. -/
def listingLine (text : String) (i : Instruction) : String :=
  (if i.label?.isSome then "" else "    ") ++ text ++ "\n"

/-- The listing of instructions with symbolic temps. -/
def listing (code : List Instruction) : String :=
  String.join (code.map fun i => listingLine i.render i)

end Instruction

end TreeBackend
