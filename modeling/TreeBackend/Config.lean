import TreeBackend.Machine.Register

/-!
# Configuration of a run

How many registers the allocator may use, how often it may spill before it
gives up, how wide a machine word is, and how many formals travel in
registers. Any numbers can be written down; `Config.fault?` says which of them
describe a machine the back end can compile for.
-/

namespace TreeBackend

/-- The settings shared by every stage of a run. -/
structure Config where
  /-- Registers the allocator may colour with. -/
  registers : Nat := 4
  /-- Spill rounds after which allocation gives up. -/
  maxSpillRounds : Nat := 8
  /-- Bytes in a machine word. -/
  wordSize : Int64 := 4
  /-- Formals that travel in registers; the rest live in the frame. -/
  maxRegisterFormals : Nat := 4
  deriving DecidableEq, Repr

namespace Config

/-- The fewest registers that instruction selection can live with. -/
def minRegisters : Nat := 3

/-- The most registers there are. -/
def maxRegisters : Nat := Register.all.length

/-- What can be wrong with a configuration. -/
inductive Fault where
  /-- The register count is outside what the machine offers. -/
  | registers (count : Nat)
  /-- Allocation may not spill at all. -/
  | noSpillRounds
  /-- A word has to have a size. -/
  | wordSize (size : Int64)
  deriving DecidableEq, Repr

/-- The fault in words. -/
def Fault.message : Fault → String
  | .registers count => s!"register count {count} outside {minRegisters}..={maxRegisters}"
  | .noSpillRounds => "max_spill_rounds must be at least 1"
  | .wordSize size => s!"word size {size} is not positive"

/-- The **first fault** of a configuration: registers before spill rounds
before word size. -/
def fault? (c : Config) : Option Fault :=
  if c.registers < minRegisters ∨ c.registers > maxRegisters then some (.registers c.registers)
  else if c.maxSpillRounds = 0 then some .noSpillRounds
  else if c.wordSize ≤ 0 then some (.wordSize c.wordSize)
  else none

/-- A configuration without a fault. -/
def Valid (c : Config) : Prop :=
  minRegisters ≤ c.registers ∧ c.registers ≤ maxRegisters ∧ 1 ≤ c.maxSpillRounds ∧ 0 < c.wordSize

instance (c : Config) : Decidable c.Valid := inferInstanceAs (Decidable (_ ∧ _ ∧ _ ∧ _))

/-- A configuration is valid exactly when no fault is found in it. -/
theorem fault?_eq_none_iff {c : Config} : c.fault? = none ↔ c.Valid := by
  unfold fault? Valid
  split
  · simp; omega
  · split
    · simp; omega
    · split
      · next hsize => simp [Int64.not_lt.mpr hsize]
      · next hsize => simp [Int64.not_le.mp hsize]; omega

end Config

end TreeBackend
