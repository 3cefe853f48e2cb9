/-!
# Statistics of a session

Counters that the stages add to as they run, and the report made of them. The
instruction counts are kept in the order of their mnemonics; the report lists
the ten most frequent, and instructions of equal count in that same order.
-/

namespace TreeBackend

/-- Counts by name, in ascending order of the names. -/
abbrev Tally := List (String × Nat)

/-- Count one more of `name`. -/
def Tally.add (name : String) : Tally → Tally
  | [] => [(name, 1)]
  | (other, count) :: rest =>
    if name < other then (name, 1) :: (other, count) :: rest
    else if name = other then (other, count + 1) :: rest
    else (other, count) :: Tally.add name rest

/-- What a session has counted so far. -/
structure Stats where
  /-- Methods compiled to the end. -/
  methods : Nat := 0
  /-- Statements in the linear bodies. -/
  statements : Nat := 0
  /-- Instructions in the compiled methods, before spill code. -/
  selected : Nat := 0
  /-- Every instruction that selection emitted, by mnemonic. -/
  counts : Tally := []
  /-- Steps of all liveness computations. -/
  liveness : Nat := 0
  /-- Moves that colouring made superfluous. -/
  coalesced : Nat := 0
  /-- Spill rounds of all allocations. -/
  spillRounds : Nat := 0
  /-- Temps that were sent to the frame. -/
  spilled : Nat := 0
  /-- Allocations that ended with temps left over. -/
  unconverged : Nat := 0
  /-- The name of the method with the most instructions. -/
  largestName : String := ""
  /-- The number of its instructions. -/
  largestSize : Nat := 0

namespace Stats

/-- Count a compiled method; the first of the largest methods is remembered. -/
def addMethod (name : String) (instructions : Nat) (s : Stats) : Stats :=
  let s := { s with methods := s.methods + 1, selected := s.selected + instructions }
  if instructions > s.largestSize then
    { s with largestSize := instructions, largestName := name }
  else s

/-- Count the statements of a linear body. -/
def addStatements (count : Nat) (s : Stats) : Stats :=
  { s with statements := s.statements + count }

/-- Count one emitted instruction. -/
def addInstruction (mnemonic : String) (s : Stats) : Stats :=
  { s with counts := s.counts.add mnemonic }

/-- Count the steps of a liveness computation. -/
def addLiveness (steps : Nat) (s : Stats) : Stats :=
  { s with liveness := s.liveness + steps }

/-- Count coalesced moves. -/
def addCoalesced (moves : Nat) (s : Stats) : Stats :=
  { s with coalesced := s.coalesced + moves }

/-- Count one spill round and the temps it spilled. -/
def addSpillRound (temps : Nat) (s : Stats) : Stats :=
  { s with spillRounds := s.spillRounds + 1, spilled := s.spilled + temps }

/-- Count an allocation that ended with temps left over. -/
def addUnconverged (s : Stats) : Stats :=
  { s with unconverged := s.unconverged + 1 }

/-- The most frequent instructions, at most ten, the most frequent first. -/
def mostFrequent (s : Stats) : List (String × Nat) :=
  (s.counts.mergeSort fun a b => b.2 ≤ a.2).take 10

/-- The lines of the report. -/
def reportLines (s : Stats) : List String :=
  ["Compilation Session Statistics:",
    s!"  Methods compiled: {s.methods}",
    s!"  Statements linearized: {s.statements}",
    s!"  Instructions selected: {s.selected}",
    s!"  Liveness iterations: {s.liveness}",
    s!"  Moves coalesced: {s.coalesced}",
    s!"  Spill rounds: {s.spillRounds}",
    s!"  Registers spilled: {s.spilled}"]
  ++ (if s.unconverged > 0 then [s!"  Unconverged allocations: {s.unconverged}"] else [])
  ++ (if s.largestName.isEmpty then []
      else [s!"  Largest method: {s.largestName} ({s.largestSize} instructions)"])
  ++ (if s.counts.isEmpty then []
      else "  Instruction breakdown:" ::
        s.mostFrequent.map fun entry => s!"    {entry.1}: {entry.2}")

/-- The report: every line ends in a newline. -/
def report (s : Stats) : String := String.join (s.reportLines.map (· ++ "\n"))

end Stats

end TreeBackend
