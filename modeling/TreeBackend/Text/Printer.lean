import TreeBackend.Tree.Basic

/-!
# Printing trees

A statement is printed one plain statement per line. A sequence, however it
nests, is one list: a line `(seq`, its plain statements indented by two, and a
line `)`. Inside an expression a statement is written on one line, every
newline turned into a space.
-/

namespace TreeBackend

namespace Text

/-- The lines of a statement made of `body`, the lines of its plain
statements: a sequence is put between `(seq` and `)`. -/
def frameLines (isSeq : Bool) (body : List String) : List String :=
  if isSeq then "(seq" :: body.map ("  " ++ ·) ++ [")"] else body

/-- Lines as one line. -/
def onOneLine (lines : List String) : String :=
  (String.intercalate " " lines).map fun c => if c = '\n' then ' ' else c

/-- Lines as text: each ends in a newline. -/
def unlines (lines : List String) : String := String.join (lines.map (· ++ "\n"))

end Text

/-- Whether the statement is a sequence. -/
def Stm.isSeq : Stm → Bool
  | .seq .. => true
  | _ => false

/-- The temp in text: `fp`, or its name as a `temp` form. -/
def Temp.print (t : Temp) : String :=
  if t.isFramePointer then "fp" else "(temp " ++ t.name ++ ")"

mutual

/-- The text of an expression. -/
def Exp.print : Exp → String
  | .const n => toString n
  | .name l => "(name " ++ l.name ++ ")"
  | .temp t => t.print
  | .binop op l r => "(binop " ++ op.name ++ " " ++ l.print ++ " " ++ r.print ++ ")"
  | .not e => "(not " ++ e.print ++ ")"
  | .mem e => "(mem " ++ e.print ++ ")"
  | .call f args => "(call " ++ f.print ++ Exp.printArgs args ++ ")"
  | .eseq s e =>
    "(eseq " ++ Text.onOneLine (Text.frameLines s.isSeq s.plainLines) ++ " " ++ e.print ++ ")"

/-- The texts of arguments, a space before each. -/
def Exp.printArgs : List Exp → String
  | [] => ""
  | e :: es => " " ++ e.print ++ Exp.printArgs es

/-- The lines of the plain statements of a statement, in order. -/
def Stm.plainLines : Stm → List String
  | .move dst src => ["(move " ++ dst.print ++ " " ++ src.print ++ ")"]
  | .exp e => ["(exp " ++ e.print ++ ")"]
  | .jump l => ["(jump " ++ l.name ++ ")"]
  | .cjump rel l r target =>
    ["(cjump " ++ rel.name ++ " " ++ l.print ++ " " ++ r.print ++ " " ++ target.name ++ ")"]
  | .label l => ["(label " ++ l.name ++ ")"]
  | .seq a b => a.plainLines ++ b.plainLines

end

/-- The lines of a statement's text. -/
def Stm.lines (s : Stm) : List String := Text.frameLines s.isSeq s.plainLines

/-- The **text** of a statement. -/
def Stm.print (s : Stm) : String := Text.unlines s.lines

/-- The texts of statements, one after another. -/
def Stm.printAll (stms : List Stm) : String := String.join (stms.map Stm.print)

end TreeBackend
