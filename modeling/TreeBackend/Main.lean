import TreeBackend.CommandLine

/-!
# Entry point

Reads the input file, runs the tool, and writes what it printed and drew.
-/

open TreeBackend

/-- The content of a file. -/
def readInput (path : String) : IO (Except FileFault ByteArray) := do
  try
    return .ok (← IO.FS.readBinFile path)
  catch
    | .noFileOrDirectory .. => return .error .notFound
    | e => return .error (.other (toString e))

/-- Write diagrams into a directory, which is made if it is not there. -/
def writeDumps (dir : String) (dumps : List CommandLine.Dump) : IO Unit := do
  IO.FS.createDirAll dir
  for dump in dumps do
    IO.FS.writeFile (dir ++ "/" ++ dump.fileName) dump.content

/-- Run the tool on command line arguments. -/
def main (args : List String) : IO UInt32 := do
  match CommandLine.Options.ofArgs? {} args with
  | none =>
    IO.eprintln "Usage: treebackend [OPTIONS] <INPUT>"
    return 2
  | some options =>
    let outcome := CommandLine.run options (← readInput options.input)
    IO.print outcome.stdout
    if let some dir := outcome.dotDir? then writeDumps dir outcome.dumps
    IO.eprint outcome.stderr
    return outcome.exitCode.toUInt32
