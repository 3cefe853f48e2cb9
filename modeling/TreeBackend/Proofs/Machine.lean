import TreeBackend.Code.Flow
import Mathlib.Logic.Function.Basic

/-!
# Machines that run code

Instructions say which temps they read and write, but not what they do with
them. This module runs code under *any* account of what instructions do: a
`Behaviour` tells, for an operation, the values read and the memory found,
which outcomes there may be – the values written, the memory left behind, the
event seen from outside, and where control goes. The reading and writing
itself is done here, once: an instruction reads its uses, then writes its
defs in order, then goes on at a place the control flow allows.

A machine keeps the temps in registers. `home` says in which register each
temp is kept, and running code under `home` is running the code with every
temp replaced by its register. Under the identity the machine has a register
for every temp; under a colouring, two temps may share one.
-/

namespace TreeBackend

open List Function

/-- What an instruction does, whatever temps it does it to. -/
structure Operation where
  opcode : Opcode
  operands : List Operand
  targets : List Label
  isCopy : Bool
  deriving DecidableEq, Repr

/-- The **operation** of an instruction: all of it but its temps. -/
def Instruction.operation (i : Instruction) : Operation where
  opcode := i.opcode
  operands := i.operands
  targets := i.targets
  isCopy := i.isCopy

namespace Machine

/-- How control leaves an instruction. -/
inductive Exit where
  /-- To the instruction that follows. -/
  | next
  /-- To one of the labels the instruction may jump to, by its position. -/
  | target (k : Nat)
  /-- Out of the code. -/
  | leave
  deriving DecidableEq, Repr

/-- What comes of running an instruction. -/
structure Outcome (V M E : Type) where
  /-- The values for the temps it writes, in order. -/
  values : List V
  /-- The memory it leaves behind. -/
  memory : M
  /-- What is seen of it from outside, if anything. -/
  event? : Option E
  exit : Exit

/-- What instructions do: `acts op values memory` holds of the outcomes an
operation may have when it reads `values` and finds `memory`. Nothing is asked
of it but that a copy of one temp to another writes the value it reads. -/
structure Behaviour (V M E : Type) where
  acts : Operation → List V → M → Outcome V M E → Prop
  mov_copies : ∀ {dst src : Temp} {v : V} {m : M} {out : Outcome V M E},
    acts (Instruction.mov dst src).operation [v] m out → out.values = [v]

/-- A machine between two instructions. -/
structure Config (R V M : Type) where
  /-- The place of the instruction to run next. -/
  index : Nat
  regs : R → V
  memory : M

section Registers

variable {R V : Type} [DecidableEq R]

/-- Write values to registers, one after the other. -/
def writeAll (regs : R → V) : List R → List V → R → V
  | r :: rs, v :: vs => writeAll (update regs r v) rs vs
  | _, _ => regs

@[simp] theorem writeAll_nil (regs : R → V) (vs : List V) : writeAll regs [] vs = regs := by
  cases vs <;> rfl

@[simp] theorem writeAll_cons (regs : R → V) (r : R) (rs : List R) (v : V) (vs : List V) :
    writeAll regs (r :: rs) (v :: vs) = writeAll (update regs r v) rs vs := rfl

/-- A register that is not written keeps its content. -/
theorem writeAll_of_notMem {regs : R → V} {rs : List R} {vs : List V} {r : R} (h : r ∉ rs) :
    writeAll regs rs vs r = regs r := by
  induction rs generalizing regs vs with
  | nil => rw [writeAll_nil]
  | cons r' rs ih =>
    obtain ⟨hne, hrs⟩ := mem_cons.not.mp h |> not_or.mp
    cases vs with
    | nil => rfl
    | cons v vs => rw [writeAll_cons, ih hrs, update_of_ne hne]

/-- **Writes through homes.** A register holds what a temp holds after the
same values were written to both, if it does so before – unless the temp is
itself written – and no other temp that is written shares it. -/
theorem writeAll_map {T : Type} [DecidableEq T] {home : T → R} {t : T} (regs : T → V)
    (regs' : R → V) {ts : List T} {vs : List V} (hlen : vs.length = ts.length)
    (hsame : t ∉ ts → regs' (home t) = regs t)
    (hshare : ∀ d ∈ ts, d ≠ t → home d ≠ home t) :
    writeAll regs' (ts.map home) vs (home t) = writeAll regs ts vs t := by
  induction ts generalizing regs regs' vs with
  | nil =>
    rw [map_nil, writeAll_nil, writeAll_nil]
    exact hsame (by simp)
  | cons d ts ih =>
    cases vs with
    | nil => simp at hlen
    | cons v vs =>
      rw [map_cons, writeAll_cons, writeAll_cons]
      refine ih _ _ (by simpa using hlen) (fun hts => ?_)
        (fun d' hd' => hshare d' (mem_cons_of_mem _ hd'))
      by_cases hd : d = t
      · subst hd
        rw [update_self, update_self]
      · rw [update_of_ne (Ne.symm (hshare d mem_cons_self hd)), update_of_ne (Ne.symm hd)]
        exact hsame (by simp [hts, Ne.symm hd])

end Registers

/-- Where control goes from the instruction `i` at `index`: nowhere, if the
instruction cannot be left that way. -/
def continueAt (code : List Instruction) (i : Instruction) (index : Nat) : Exit → Option Nat
  | .next => if i.opcode.fallsThrough then some (index + 1) else none
  | .target k => i.targets[k]?.bind (Flow.labelIndex? code)
  | .leave => some code.length

section Runs

variable {R V M E : Type} [DecidableEq R]

/-- What the instruction reads. -/
def Config.reads (c : Config R V M) (home : Temp → R) (i : Instruction) : List V :=
  i.uses.map fun t => c.regs (home t)

/-- **One step**: the instruction at `c.index` is run with outcome `out`. -/
inductive Step (b : Behaviour V M E) (code : List Instruction) (home : Temp → R) :
    Config R V M → Outcome V M E → Config R V M → Prop where
  | run {c : Config R V M} {out : Outcome V M E} {i : Instruction} {next : Nat}
      (fetched : code[c.index]? = some i)
      (acts : b.acts i.operation (c.reads home i) c.memory out)
      (arity : out.values.length = i.defs.length)
      (goes : continueAt code i c.index out.exit = some next) :
      Step b code home c out ⟨next, writeAll c.regs (i.defs.map home) out.values, out.memory⟩

/-- A **run**: any number of steps. Every step is remembered by the
configuration it started in and its outcome. -/
inductive Run (b : Behaviour V M E) (code : List Instruction) (home : Temp → R) :
    Config R V M → List (Config R V M × Outcome V M E) → Config R V M → Prop where
  | nil (c : Config R V M) : Run b code home c [] c
  | cons {c c₁ c₂ : Config R V M} {out : Outcome V M E}
      {steps : List (Config R V M × Outcome V M E)} (head : Step b code home c out c₁)
      (tail : Run b code home c₁ steps c₂) : Run b code home c ((c, out) :: steps) c₂

theorem Run.append {b : Behaviour V M E} {code : List Instruction} {home : Temp → R}
    {c₁ c₂ c₃ : Config R V M} {steps steps' : List (Config R V M × Outcome V M E)}
    (h : Run b code home c₁ steps c₂) (h' : Run b code home c₂ steps' c₃) :
    Run b code home c₁ (steps ++ steps') c₃ := by
  induction h with
  | nil c => exact h'
  | cons head _ ih => exact .cons head (ih h')

end Runs

end Machine

end TreeBackend
