import TreeBackend.Config
import TreeBackend.Tree.Basic

/-!
# What can go wrong

Every failure of the back end is one of the causes below. A cause says what
happened; `Error.message` puts it into words, and `Error.severity` says whether
the input is to blame, or a tree that breaks a stage's contract, or a construct
without a rule, or an allocation that did not settle.
-/

namespace TreeBackend

/-- The roles in which a lowered program fragment can stand. -/
inductive Role where
  | expression
  | statement
  | conditional
  deriving DecidableEq, Repr

/-- The role in words. -/
def Role.name : Role → String
  | .expression => "expression"
  | .statement => "statement"
  | .conditional => "conditional"

/-- A place in text. Lines and columns count from one. -/
structure Position where
  line : Nat
  column : Nat
  deriving DecidableEq, Repr

/-- The first place of a text. -/
def Position.start : Position := ⟨1, 1⟩

/-- The place after one more character: a newline starts the next line. -/
def Position.after (p : Position) (c : Char) : Position :=
  if c = '\n' then ⟨p.line + 1, 1⟩ else ⟨p.line, p.column + 1⟩

/-- What takes two operands. -/
inductive Construct where
  | move
  | branch
  | operator
  deriving DecidableEq, Repr

/-- The construct in words. -/
def Construct.name : Construct → String
  | .move => "move"
  | .branch => "branch"
  | .operator => "operator"

/-- A tree that breaks the contract of the stage it reached. -/
inductive Malformation where
  /-- Canonicalization met a move into something that cannot be assigned. -/
  | notAssignable (dst : Exp.Kind)
  /-- Canonicalization put operands in order and did not get two of them back. -/
  | lostOperands (of : Construct)
  /-- Canonicalization put the function of a call in order and did not get it back. -/
  | callWithoutTarget
  /-- Linearization met a statement hidden inside an expression. -/
  | hiddenStatement (within : Stm.Kind)
  /-- A block layout places one label twice. -/
  | labelInBlocksTwice (label : Label)
  /-- An instruction list places one label twice. -/
  | labelInCodeTwice (label : Label)
  /-- Instruction selection met a sequence. -/
  | seqSelected
  /-- Instruction selection met a statement hidden inside an expression. -/
  | eseqSelected
  /-- A comparison was asked to branch on less-than. -/
  | polarity
  /-- A class is its own ancestor. -/
  | inheritanceCycle (className : String)
  deriving DecidableEq, Repr

namespace Malformation

/-- The stage whose contract is broken. -/
def stage : Malformation → String
  | notAssignable _ | lostOperands _ | callWithoutTarget => "canonicalize"
  | hiddenStatement _ => "linearize"
  | labelInBlocksTwice _ => "reblock"
  | labelInCodeTwice _ => "liveness"
  | seqSelected | eseqSelected => "instruction selection"
  | polarity => "conditional"
  | inheritanceCycle _ => "symbol table"

/-- How the contract is broken. -/
def reason : Malformation → String
  | notAssignable dst => s!"move into {dst.keyword} is not assignable"
  | lostOperands construct => s!"lost {construct.name} operands"
  | callWithoutTarget => "call without a target"
  | hiddenStatement within => s!"eseq inside {within.keyword} statement"
  | labelInBlocksTwice l | labelInCodeTwice l => s!"label `{l.name}` placed more than once"
  | seqSelected => "seq reached the selector"
  | eseqSelected => "eseq reached the selector"
  | polarity => "a deferred comparison only branches on eq/neq polarity"
  | inheritanceCycle className => s!"inheritance cycle through `{className}`"

end Malformation

/-- A text that is not the text of a tree. -/
inductive SyntaxFault where
  | expectedOpen
  | expectedClose
  | expectedName
  | notInteger (text : String)
  | expectedMethod (found : String)
  | unknownStatement (keyword : String)
  | unknownExpression (keyword : String)
  | unknownRelation (name : String)
  | unknownOperator (name : String)
  | trailingInput
  deriving DecidableEq, Repr

/-- The fault in words. -/
def SyntaxFault.message : SyntaxFault → String
  | expectedOpen => "expected `(`"
  | expectedClose => "expected `)`"
  | expectedName => "expected a name"
  | notInteger text => s!"`{text}` is not an integer"
  | expectedMethod found => s!"expected `method`, found `{found}`"
  | unknownStatement keyword => s!"unknown statement `{keyword}`"
  | unknownExpression keyword => s!"unknown expression `{keyword}`"
  | unknownRelation name => s!"unknown relation `{name}`"
  | unknownOperator name => s!"unknown operator `{name}`"
  | trailingInput => "trailing input after statement"

/-- A file that could not be read or written. -/
inductive FileFault where
  | notFound
  | notText
  | nameTooLong
  /-- Any other reason, in the operating system's words. -/
  | other (message : String)
  deriving DecidableEq, Repr

/-- The fault in words. -/
def FileFault.message : FileFault → String
  | notFound => "No such file or directory (os error 2)"
  | notText => "stream did not contain valid UTF-8"
  | nameTooLong => "File name too long (os error 36)"
  | other message => message

/-- Why a compilation failed. -/
inductive Error where
  /-- A stage was handed a tree that breaks its contract. -/
  | malformed (cause : Malformation)
  /-- A program fragment was asked for a role it cannot play. -/
  | roleMismatch (expected found : Role)
  /-- A jump leads to a label that is placed nowhere. -/
  | undefinedLabel (label : Label)
  /-- Instruction selection has no rule for a move into this shape. -/
  | unsupportedMove (dst : Exp.Kind)
  /-- Allocation ended with temps that have no register. -/
  | unallocated (method : String) (rounds remaining : Nat)
  /-- A method mentions a variable that is declared nowhere. -/
  | undeclared (name method : String)
  /-- A class has no method of this name. -/
  | unresolvedMethod (className method : String)
  /-- No class has this name. -/
  | unknownClass (name : String)
  /-- The configuration describes no machine to compile for. -/
  | config (fault : Config.Fault)
  /-- The text is not the text of a tree. -/
  | parse (position : Position) (fault : SyntaxFault)
  /-- A file could not be read or written. -/
  | file (fault : FileFault)
  deriving DecidableEq, Repr

/-- What is to blame for a failure. -/
inductive Severity where
  | malformed
  | unsupported
  | nonTermination
  | input
  deriving DecidableEq, Repr

namespace Error

/-- The failure in words. -/
def message : Error → String
  | malformed cause => s!"Malformed {cause.stage} input: {cause.reason}"
  | roleMismatch expected found =>
    s!"Subtree wrapper mismatch: expected {expected.name}, found {found.name}"
  | undefinedLabel label => s!"Jump to undefined label `{label.name}`"
  | unsupportedMove dst => s!"Instruction selection not implemented for move into {dst.keyword}"
  | unallocated method rounds remaining =>
    s!"Register allocation for `{method}` did not converge after {rounds} spill rounds "
      ++ s!"({remaining} registers uncolored)"
  | undeclared name method => s!"Undeclared identifier `{name}` in `{method}`"
  | unresolvedMethod className method => s!"Method `{method}` not found in class `{className}`"
  | unknownClass name => s!"Unknown class `{name}`"
  | config fault => s!"Invalid configuration: {fault.message}"
  | parse position fault =>
    s!"Parse error at {position.line}:{position.column}: {fault.message}"
  | file fault => fault.message

/-- What is to blame for the failure. -/
def severity : Error → Severity
  | malformed _ | roleMismatch .. | undefinedLabel _ => .malformed
  | unsupportedMove _ => .unsupported
  | unallocated .. => .nonTermination
  | undeclared .. | unresolvedMethod .. | unknownClass _ | config _ | parse .. | file _ => .input

end Error

end TreeBackend
