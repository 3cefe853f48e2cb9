import TreeBackend.Program.Basic
import TreeBackend.Storage.Frame
import TreeBackend.Storage.Layout

/-!
# Class tables

The classes of a program with everything they inherit. Fields of ancestors come
first; a method that replaces an inherited one keeps its place in the method
table. Where two classes have one name, the later one is meant.
-/

namespace TreeBackend

/-- A class and the layout of its objects. -/
structure ClassInfo where
  name : String
  parent? : Option String
  layout : ClassLayout

/-- The classes of a program, in order. -/
structure ClassTable where
  classes : List ClassInfo

namespace ClassTable

open Program

/-- The class of a name among declarations: the last of that name. -/
def declared? (classes : List ClassDecl) (name : String) : Option ClassDecl :=
  classes.reverse.find? fun c => c.name == name

/-- The ancestors of `current`, the most remote one first, followed by `chain`,
which is `current` and what was visited before it. Fails on an unknown parent,
and on one that was visited before. The ancestors of a class are fewer than the
classes, so their number is enough fuel. -/
def ancestry (classes : List ClassDecl) :
    Nat → List ClassDecl → ClassDecl → Except Error (List ClassDecl)
  | 0, chain, _ => return chain
  | fuel + 1, chain, current =>
    match current.parent? with
    | none => return chain
    | some parent =>
      match declared? classes parent with
      | none => throw (.unknownClass parent)
      | some c =>
        if chain.any (·.name == c.name) then throw (.malformed (.inheritanceCycle c.name))
        else ancestry classes fuel (c :: chain) c

/-- Methods in the order of the method table: each name once, where it was met
first. -/
def methodOrder (chain : List ClassDecl) : List String :=
  (chain.flatMap (·.methods)).foldl (fun names m =>
    if m.name ∈ names then names else names ++ [m.name]) []

/-- The entry of one class. -/
def info (classes : List ClassDecl) (c : ClassDecl) : CompileM ClassInfo := do
  let chain ← ancestry classes classes.length [c] c
  let layout ← ClassLayout.new c.name (chain.flatMap (·.fields)) (methodOrder chain)
  return { name := c.name, parent? := c.parent?, layout }

/-- The **class table** of a program. -/
def build (program : Program) : CompileM ClassTable := do
  return ⟨← program.classes.mapM (info program.classes)⟩

/-- The class of a name. -/
def find (table : ClassTable) (name : String) : Except Error ClassInfo :=
  match table.classes.reverse.find? fun c => c.name == name with
  | some c => return c
  | none => throw (.unknownClass name)

/-- The name of the formal that holds the receiver. -/
def thisName : String := "this"

/-- The name of a method's code. -/
def methodKey (className method : String) : String := className ++ "@" ++ method

/-- The name of the main method's code. -/
def mainKey (className : String) : String := className ++ "@MAIN"

/-- The **frame** of a method: receiver, parameters, locals, then the caller's
continuation. -/
def methodFrame (className : String) (m : MethodDecl) : SessionM Frame := do
  let frame ← Frame.new (methodKey className m.name)
  let frame ← (thisName :: m.params).foldlM (fun f name => f.addFormal name) frame
  (m.locals.foldl Frame.addLocal frame).addExitAddress

end ClassTable

end TreeBackend
