import TreeBackend.Diagram
import TreeBackend.Method

/-!
# The command line tool

The tool reads methods as text, compiles each of them, and prints the listing
with registers, and on request what the stages in between made of the method.
It stops at the first failure; what was printed before stays printed. Diagrams
of every stage are written on request.

Everything here is a function of the options and of the file's content; the
main module reads and writes the files.
-/

namespace TreeBackend.CommandLine

/-- What the tool is asked to do. -/
structure Options where
  /-- The file with the methods. -/
  input : String := ""
  registers : Nat := 4
  maxSpillRounds : Nat := 8
  printCanon : Bool := false
  printLinear : Bool := false
  printBlocks : Bool := false
  printLiveness : Bool := false
  printColors : Bool := false
  /-- Where diagrams are written to, if they are wanted. -/
  dotDir? : Option String := none
  strict : Bool := false

namespace Options

/-- A count on the command line: digits, after an optional plus sign. -/
def count? (text : String) : Option Nat :=
  match text.toList with
  | '+' :: digits => Word.ofDigits? digits
  | digits => Word.ofDigits? digits

/-- Read command line arguments into options. Fails on an unknown option, on a
missing value, and when there is not exactly one file. -/
def ofArgs? (options : Options) : List String → Option Options
  | [] => if options.input.isEmpty then none else some options
  | "--print-canon" :: rest => ofArgs? { options with printCanon := true } rest
  | "--print-linear" :: rest => ofArgs? { options with printLinear := true } rest
  | "--print-blocks" :: rest => ofArgs? { options with printBlocks := true } rest
  | "--print-liveness" :: rest => ofArgs? { options with printLiveness := true } rest
  | "--print-colors" :: rest => ofArgs? { options with printColors := true } rest
  | "--strict" :: rest => ofArgs? { options with strict := true } rest
  | "--dot-dir" :: dir :: rest => ofArgs? { options with dotDir? := some dir } rest
  | "--registers" :: n :: rest =>
    match count? n with
    | some registers => ofArgs? { options with registers } rest
    | none => none
  | "--max-spill-rounds" :: n :: rest =>
    match count? n with
    | some maxSpillRounds => ofArgs? { options with maxSpillRounds } rest
    | none => none
  | arg :: rest =>
    if arg.startsWith "-" || !options.input.isEmpty then none
    else ofArgs? { options with input := arg } rest

/-- The configuration that the options ask for. -/
def config (options : Options) : Config :=
  { registers := options.registers, maxSpillRounds := options.maxSpillRounds }

end Options

/-- A diagram to be written: the file's name and its content. -/
structure Dump where
  fileName : String
  content : String

/-- What a run printed and wrote, and how it ended. -/
structure Outcome where
  stdout : String := ""
  /-- Where diagrams are written to: once the input was read, and if they are
  wanted. -/
  dotDir? : Option String := none
  /-- The diagrams, in the order they are written in. -/
  dumps : List Dump := []
  error? : Option Error := none

namespace Outcome

/-- What the run says about its failure. -/
def stderr (o : Outcome) : String :=
  match o.error? with
  | some error => s!"Error: {error.message}\n"
  | none => ""

/-- The exit code: it tells what is to blame for a failure. -/
def exitCode (o : Outcome) : Nat :=
  match o.error? with
  | none => 0
  | some error =>
    match error.severity with
    | .nonTermination => 3
    | .input => 2
    | .malformed | .unsupported => 1

end Outcome

/-- The text of a file's content. -/
def decode (content : ByteArray) : Except FileFault String :=
  match String.fromUTF8? content with
  | some text => return text
  | none => throw .notText

/-- A text filled up with spaces on the right. -/
def padRight (width : Nat) (text : String) : String :=
  text ++ String.ofList (List.replicate (width - text.length) ' ')

/-- The live sets of a method's final code, a line per instruction. -/
def livenessLines (a : Allocation) : List String :=
  s!"; liveness ({a.liveness.iterations} iterations)" ::
    ((a.instructions.zip a.liveness.flow.toList).zipIdx.map fun entry =>
      ";   " ++ padRight 40 (entry.1.1.render.map fun c => if c = '\t' then ' ' else c)
        ++ " in: \x7b" ++ Diagram.tempNames (a.liveness.before entry.2)
        ++ "\x7d out: \x7b" ++ Diagram.tempNames (a.liveness.after entry.2) ++ "\x7d")

/-- The registers of a method's temps, then the words of its spilled temps. -/
def colorLines (a : Allocation) : List String :=
  "; colors" ::
    (a.colors.toList.map fun entry =>
      let register := ((Register.ofColor? entry.2).map Register.name).getD (toString entry.2)
      s!";   {entry.1.display} -> {register}")
    ++ a.spilled.map fun t => s!";   {t.display} -> [ebp + {a.slots.getD t 0}]"

/-- What is printed about a compiled method. -/
def report (options : Options) (m : CompiledMethod) : String :=
  let part (wanted : Bool) (text : String) := if wanted then text else ""
  s!"; {m.name}\n"
    ++ part options.printCanon ("; canonical\n" ++ m.canonical.print)
    ++ part options.printLinear ("; linear\n" ++ Stm.printAll m.linear)
    ++ part options.printBlocks ("; reblocked\n" ++ Stm.printAll m.reblocked)
    ++ part options.printLiveness (Text.unlines (livenessLines m.allocation))
    ++ part options.printColors (Text.unlines (colorLines m.allocation))
    ++ part (!m.allocation.converged) "; warning: allocation did not converge\n"
    ++ m.allocation.listing ++ "\n"

/-- A method's name as part of a file name: all but ASCII letters and digits
become underscores. -/
def stem (name : String) : String := name.map fun c => if c.isAlphanum then c else '_'

/-- The diagrams of a method, from the tree that was read to the coloured
graph. -/
def dumps (body : Stm) (m : CompiledMethod) : List Dump :=
  let dump (stage content : String) : Dump :=
    { fileName := stem m.name ++ "." ++ stage ++ ".dot", content }
  [dump "tree" (Diagram.tree m.name body),
    dump "canon" (Diagram.tree m.name m.canonical),
    dump "linear" (Diagram.statements m.name m.linear),
    dump "blocks" (Diagram.statements m.name m.reblocked),
    dump "liveness" (Diagram.liveness m.name m.allocation.instructions m.allocation.liveness),
    dump "interference" (Diagram.interference m.name m.allocation.interference)]

/-- The longest name a file can have, in characters of one byte each. -/
def maxFileName : Nat := 255

/-- Write diagrams until one cannot be written. -/
def Outcome.write (o : Outcome) : List Dump → Outcome
  | [] => o
  | dump :: rest =>
    if dump.fileName.length > maxFileName then { o with error? := some (.file .nameTooLong) }
    else Outcome.write { o with dumps := o.dumps ++ [dump] } rest

/-- Compile and report methods until one fails. -/
def compileAll (options : Options) (session : Session) :
    Outcome → List Text.MethodText → Outcome
  | o, [] => o
  | o, m :: rest =>
    match (CompiledMethod.ofText options.strict m).run session with
    | (.error error, _) => { o with error? := some error }
    | (.ok compiled, session) =>
      let o := { o with stdout := o.stdout ++ report options compiled }
      let o := if o.dotDir?.isSome then o.write (dumps m.body compiled) else o
      if o.error?.isSome then o else compileAll options session o rest

/-- **Run the tool** on the content of its input file. The configuration is
checked before the file is. -/
def run (options : Options) (content : Except FileFault ByteArray) : Outcome :=
  match options.config.fault? with
  | some fault => { error? := some (.config fault) }
  | none =>
    match content >>= decode with
    | .error fault => { error? := some (.file fault) }
    | .ok text =>
      match (Text.readMethods text).run (Session.new options.config) with
      | (.error error, _) => { error? := some error }
      | (.ok methods, session) => compileAll options session { dotDir? := options.dotDir? } methods

end TreeBackend.CommandLine
