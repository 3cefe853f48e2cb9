import TreeBackend.Session.Basic
import TreeBackend.Text.Token
import TreeBackend.Word

/-!
# Reading trees

A tree is written as nested lists headed by keywords: statements by `seq`,
`move`, `exp`, `jump`, `cjump`, `label`, expressions by `const`, `name`,
`temp`, `binop`, `not`, `mem`, `call`, `eseq`. A bare numeral is a constant and
a bare `fp` the frame pointer. One name means one temp throughout a method, and
temps and labels come into being as the reader meets them.

A fault is reported at the token where reading stopped – at the last token when
the text ended too early, and at the first place when there is no token.
-/

namespace TreeBackend.Text

/-- What is left to read, and what the names read so far stand for. -/
structure Reader where
  /-- The tokens still to be read. -/
  rest : List Token
  /-- Where a text that ends too early is at fault. -/
  last : Position
  /-- The temps of the method, in the order of first mention. -/
  temps : List (String × Temp) := []
  session : Session

/-- Computations that read tokens. -/
abbrev ReadM := ExceptT Error (StateM Reader)

namespace Reader

/-- Run a session's computation while reading. -/
def inSession {α : Type} (act : SessionM α) : ReadM α := fun r =>
  let (a, session) := act.run r.session
  (.ok a, { r with session })

/-- Fail at a place. -/
def failAt {α : Type} (position : Position) (fault : SyntaxFault) : ReadM α :=
  throw (.parse position fault)

/-- The place of the next token, or of the last one at the end. -/
def place (r : Reader) : Position :=
  match r.rest with
  | token :: _ => token.position
  | [] => r.last

/-- Fail at the next token. -/
def fail {α : Type} (fault : SyntaxFault) : ReadM α := do
  failAt (← get).place fault

/-- The next token's sort, without reading it. -/
def peek? : ReadM (Option Token.Sort) := do
  return (← get).rest.head?.map Token.sort

/-- Read an opening parenthesis. -/
def opening : ReadM Unit := do
  match (← get).rest with
  | ⟨.opening, _⟩ :: rest => modify fun r => { r with rest }
  | _ => fail .expectedOpen

/-- Read a closing parenthesis. -/
def closing : ReadM Unit := do
  match (← get).rest with
  | ⟨.closing, _⟩ :: rest => modify fun r => { r with rest }
  | _ => fail .expectedClose

/-- Read an atom; also tells where it stands. -/
def atom : ReadM (String × Position) := do
  match (← get).rest with
  | ⟨.atom text, position⟩ :: rest =>
    modify fun r => { r with rest }
    return (text, position)
  | _ => fail .expectedName

/-- Read a numeral. -/
def integer : ReadM Int64 := do
  let (text, position) ← atom
  match Word.ofNumeral? text with
  | some n => return n
  | none => failAt position (.notInteger text)

/-- Read a label's name. -/
def label : ReadM Label := do
  let (name, _) ← atom
  inSession (Session.namedLabel name)

/-- The temp called `name` in this method; a new name draws a new temp. -/
def temp (name : String) : ReadM Temp := do
  if name = "fp" then return .framePointer
  match (← get).temps.lookup name with
  | some t => return t
  | none =>
    let t ← inSession (Session.newTemp name)
    modify fun r => { r with temps := r.temps ++ [(name, t)] }
    return t

/-- Read a relation's name; an unknown one is a fault at the token after it. -/
def relation : ReadM RelOp := do
  let (name, _) ← atom
  match RelOp.ofName? name with
  | some rel => return rel
  | none => fail (.unknownRelation name)

/-- Read an operator's name; an unknown one is a fault at the token after it. -/
def operator : ReadM BinOp := do
  let (name, _) ← atom
  match BinOp.ofName? name with
  | some op => return op
  | none => fail (.unknownOperator name)

/-- The shape of the statement that an atom heads. -/
def stmKind : ReadM Stm.Kind := do
  let (keyword, position) ← atom
  match Stm.Kind.ofKeyword? keyword with
  | some kind => return kind
  | none => failAt position (.unknownStatement keyword)

/-- The shape of the expression that an atom heads. -/
def expKind : ReadM Exp.Kind := do
  let (keyword, position) ← atom
  match Exp.Kind.ofKeyword? keyword with
  | some kind => return kind
  | none => failAt position (.unknownExpression keyword)

mutual

/-- Read a statement. The first argument bounds the nesting; one more than the
number of tokens is always enough. -/
def stm : Nat → ReadM Stm
  | 0 => fail .expectedOpen
  | fuel + 1 => do
    opening
    let s ← match ← stmKind with
      | .seq => pure (Stm.seqAll (← stms fuel))
      | .move => pure (.move (← exp fuel) (← exp fuel))
      | .exp => pure (.exp (← exp fuel))
      | .jump => pure (.jump (← label))
      | .cjump => pure (.cjump (← relation) (← exp fuel) (← exp fuel) (← label))
      | .label => pure (.label (← label))
    closing
    return s

/-- Read statements for as long as a parenthesis opens. -/
def stms : Nat → ReadM (List Stm)
  | 0 => return []
  | fuel + 1 => do
    if (← peek?) = some .opening then
      return (← stm fuel) :: (← stms fuel)
    else return []

/-- Read an expression. -/
def exp : Nat → ReadM Exp
  | 0 => fail .expectedOpen
  | fuel + 1 => do
    match ← peek? with
    | some (.atom "fp") =>
      let _ ← atom
      return .temp .framePointer
    | some (.atom _) => return .const (← integer)
    | _ =>
      opening
      let e ← match ← expKind with
        | .const => pure (.const (← integer))
        | .name => pure (.name (← label))
        | .temp => pure (.temp (← temp (← atom).1))
        | .binop => pure (.binop (← operator) (← exp fuel) (← exp fuel))
        | .not => pure (.not (← exp fuel))
        | .mem => pure (.mem (← exp fuel))
        | .call => pure (.call (← exp fuel) (← exps fuel))
        | .eseq => pure (.eseq (← stm fuel) (← exp fuel))
      closing
      return e

/-- Read expressions up to a closing parenthesis or the end. -/
def exps : Nat → ReadM (List Exp)
  | 0 => return []
  | fuel + 1 => do
    match ← peek? with
    | none | some .closing => return []
    | some _ => return (← exp fuel) :: (← exps fuel)

end

end Reader

/-- A method read from text. -/
structure MethodText where
  name : String
  body : Stm
  /-- The temps of the body with their names, in the order of first mention. -/
  temps : List (String × Temp)

/-- The temp that the method calls `name`. -/
def MethodText.temp? (m : MethodText) (name : String) : Option Temp := m.temps.lookup name

namespace Reader

/-- Read a method: its name and its body. -/
def method (fuel : Nat) : ReadM MethodText := do
  opening
  let (keyword, position) ← atom
  if keyword ≠ "method" then failAt position (.expectedMethod keyword)
  let (name, _) ← atom
  modify fun r => { r with temps := [] }
  let body ← stm fuel
  closing
  return { name, body, temps := (← get).temps }

/-- Read methods up to the end. -/
def methods : Nat → ReadM (List MethodText)
  | 0 => return []
  | fuel + 1 => do
    if (← get).rest.isEmpty then return []
    else return (← method fuel) :: (← methods fuel)

/-- Read a statement that is the whole text, and the temps it mentions. -/
def wholeStm (fuel : Nat) : ReadM (Stm × List (String × Temp)) := do
  let s ← stm fuel
  unless (← get).rest.isEmpty do fail .trailingInput
  return (s, (← get).temps)

/-- Run a reader over a text, with more fuel than the text has tokens. -/
def overText {α : Type} (read : Nat → ReadM α) (text : String) : CompileM α := fun session =>
  let tokens := tokens text
  let last := (tokens.getLast?.map Token.position).getD Position.start
  let (result, r) := (read (tokens.length + 2)).run { rest := tokens, last, session }
  (result, r.session)

end Reader

/-- Read a text that is one statement: the statement, and the temps it
mentions in the order of first mention. -/
def readStm (text : String) : CompileM (Stm × List (String × Temp)) :=
  Reader.overText Reader.wholeStm text

/-- Read a text that is a row of methods. -/
def readMethods (text : String) : CompileM (List MethodText) :=
  Reader.overText Reader.methods text

end TreeBackend.Text
