import TreeBackend.Proofs.Machine
import TreeBackend.Proofs.TreeSemantics

/-!
# A processor

Selected code runs on a processor with sixty-four-bit words. Arithmetic wraps
around; a comparison remembers the two values it compared, and the branches
after it look at those; a call leaves its answer in the first register it
clobbers and anything at all in the second, and no other register changes. A
division divides the pair of two registers, and its remainder is what the
operator `mod` of trees denotes.

What is outside of the processor – where labels are, how memory works, who
answers calls, what arrives with a method – makes up its **surroundings**.
`Surroundings.behaviour` is the processor as a machine, and
`Surroundings.host` is the same account of words for trees.

A method has run when control comes to its return: no step leads from there.
-/

namespace TreeBackend

/-- A call: its function and its arguments. -/
abbrev Call := BitVec 64 × List (BitVec 64)

/-- What a processor works with and does not decide. -/
structure Surroundings (M : Type) where
  address : Label → BitVec 64
  load : M → BitVec 64 → BitVec 64
  store : M → BitVec 64 → BitVec 64 → M
  answer : List Call → M → BitVec 64 → List (BitVec 64) → BitVec 64 × M
  /-- What a call leaves in the second register it clobbers. -/
  litter : List Call → BitVec 64
  /-- The values that arrive with a method, in order. -/
  arriving : Nat → BitVec 64
  /-- The remainder of a division by zero. -/
  modZero : BitVec 64 → BitVec 64

/-- A processor, apart from its registers. -/
structure Processor (M : Type) where
  memory : M
  calls : List Call
  /-- The two values compared last. -/
  compared : BitVec 64 × BitVec 64

/-- The world that trees see in registers and a processor. -/
def Processor.world {M : Type} (p : Processor M) (regs : Temp → BitVec 64) : World (BitVec 64) M :=
  ⟨regs, p.memory, p.calls⟩

/-! ## Words -/

namespace Word

/-- A word that is all sign: what a dividend is extended with. -/
def signFill (x : BitVec 64) : BitVec 64 := if x.msb then BitVec.allOnes 64 else 0#64

/-- The remainder of a pair of words, the high one first, by a word. -/
def pairRemainder (high low divisor : BitVec 64) : BitVec 64 :=
  ((high ++ low : BitVec 128).srem (divisor.signExtend 128)).setWidth 64

/-- The quotient of a pair of words, the high one first, by a word. -/
def pairQuotient (high low divisor : BitVec 64) : BitVec 64 :=
  ((high ++ low : BitVec 128).sdiv (divisor.signExtend 128)).setWidth 64

theorem setWidth_signExtend (x : BitVec 64) : (x.signExtend 128).setWidth 64 = x := by
  ext i hi
  rw [BitVec.getElem_setWidth, BitVec.getLsbD_signExtend, if_pos hi,
    decide_eq_true (Nat.lt_trans hi (by decide)), Bool.true_and]
  rfl

/-- **Division of an extended word** has the remainder of the word itself, also
where the quotient does not fit. -/
theorem pairRemainder_signFill (x divisor : BitVec 64) :
    pairRemainder (signFill x) x divisor = x.srem divisor := by
  have hpair : (signFill x ++ x : BitVec 128) = x.signExtend 128 := by
    rw [BitVec.signExtend_eq_append_of_le (by decide)]
    rfl
  have hsrem : (x.signExtend 128).srem (divisor.signExtend 128)
      = (x.srem divisor).signExtend 128 := by
    apply BitVec.eq_of_toInt_eq
    rw [BitVec.toInt_srem, BitVec.toInt_signExtend_of_le (by decide),
      BitVec.toInt_signExtend_of_le (by decide), BitVec.toInt_signExtend_of_le (by decide),
      BitVec.toInt_srem]
  rw [pairRemainder, hpair, hsrem, setWidth_signExtend]

end Word

namespace Surroundings

variable {M : Type} (env : Surroundings M)

/-- The remainder that `mod` denotes. -/
def remainder (x y : BitVec 64) : BitVec 64 := if y = 0 then env.modZero x else x.srem y

/-- What operators denote. -/
def operator : BinOp → BitVec 64 → BitVec 64 → BitVec 64
  | .plus, x, y => x + y
  | .minus, x, y => x - y
  | .mul, x, y => x * y
  | .mod, x, y => env.remainder x y
  | .or, x, y => x ||| y
  | .and, x, y => x &&& y

/-- What relations denote; words are compared as signed numbers. -/
def relation : RelOp → BitVec 64 → BitVec 64 → Bool
  | .eq, x, y => x == y
  | .neq, x, y => x != y
  | .lt, x, y => x.slt y

/-- The **host** of trees that the surroundings and the words make up. Negation
flips the lowest bit. -/
def host : Host (BitVec 64) M where
  const := Int64.toBitVec
  name := env.address
  binop := env.operator
  not x := x ^^^ 1#64
  holds := relation
  load := env.load
  store := env.store
  answer := env.answer

/-! ## Instructions -/

/-- The value of an operand from the values the instruction reads; of a memory
operand, its address. -/
def operand (values : List (BitVec 64)) : Operand → BitVec 64
  | .useAt k => values.getD k 0
  | .imm n => n.toBitVec
  | .mem base? disp => base?.elim 0 (values.getD · 0) + disp.toBitVec
  | .symbol l => env.address l
  | .defAt _ | .targetAt _ => 0

/-- What the instructions of two operands compute. -/
def combine : Opcode → BitVec 64 → BitVec 64 → BitVec 64
  | .add, x, y => x + y
  | .sub, x, y => x - y
  | .and, x, y => x &&& y
  | .or, x, y => x ||| y
  | .xor, x, y => x ^^^ y
  | .imul, x, y => x * y
  | _, x, _ => x

/-- Whether a jump is taken, from the two values compared last. -/
def taken : Opcode → BitVec 64 × BitVec 64 → Bool
  | .jmp, _ => true
  | .je, (x, y) => x == y
  | .jne, (x, y) => x != y
  | .jl, (x, y) => x.slt y
  | .jg, (x, y) => y.slt x
  | _, _ => false

/-- The function a call goes to, and the arguments among the values it reads. -/
def callee (values : List (BitVec 64)) (memory : M) : Operand → Call
  | .mem base? disp =>
    (env.load memory (env.operand values (.mem base? disp)), base?.elim values fun _ => values.tail)
  | .useAt k => (values.getD k 0, values.tail)
  | target => (env.operand values target, values)

/-- The outcome of an instruction that goes on with the next one. -/
def straight (values : List (BitVec 64)) (p : Processor M) :
    Machine.Outcome (BitVec 64) (Processor M) Call :=
  ⟨values, p, none, .next⟩

/-- What an operation comes to. -/
def execute (op : Operation) (values : List (BitVec 64)) (p : Processor M) :
    Option (Machine.Outcome (BitVec 64) (Processor M) Call) :=
  match op.opcode, op.operands with
  | .mov, [.defAt _, src] => some (straight [env.operand values src] p)
  | .load, [.defAt _, src] => some (straight [env.load p.memory (env.operand values src)] p)
  | .store, [dst, src] =>
    some (straight []
      { p with memory := env.store p.memory (env.operand values dst) (env.operand values src) })
  | .imul, [.defAt _, left, right] =>
    some (straight [env.operand values left * env.operand values right] p)
  | .cdq, _ => some (straight [Word.signFill (values.getD 0 0)] p)
  | .idiv, [divisor] =>
    let d := env.operand values divisor
    let low := values.getD 1 0
    let high := values.getD 2 0
    some (straight [Word.pairQuotient high low d,
      if d = 0 then env.modZero low else Word.pairRemainder high low d] p)
  | .cmp, [left, right] =>
    some (straight [] { p with compared := (env.operand values left, env.operand values right) })
  | .call, [target] =>
    let call := env.callee values p.memory target
    let answer := env.answer p.calls p.memory call.1 call.2
    some ⟨[answer.1, env.litter (p.calls ++ [call])],
      { p with memory := answer.2, calls := p.calls ++ [call] }, some call, .next⟩
  | .label, _ => some (straight [] p)
  | .ret, _ | .enter, _ => none
  | opcode, [.defAt _, src] =>
    some (straight [combine opcode (values.getD 0 0) (env.operand values src)] p)
  | opcode, [.targetAt k] =>
    some ⟨[], p, none, if taken opcode p.compared then .target k else .next⟩
  | _, _ => none

/-- The **processor** as a machine. Entering a method, any number of values
arrive; how many are taken is up to the instruction. -/
def behaviour : Machine.Behaviour (BitVec 64) (Processor M) Call where
  acts op values p out := env.execute op values p = some out ∨
      op.opcode = .enter ∧ ∃ n, out = straight ((List.range n).map env.arriving) p
  mov_copies {dst src v p out} h := by
    obtain h | ⟨h, _⟩ := h
    · exact (congrArg Machine.Outcome.values (Option.some.inj h)).symm
    · cases h

/-! ## Processors at work -/

/-- A processor at work, and the decisions its branches have made so far. -/
abbrev Logged (M : Type) := Machine.Config Temp (BitVec 64) (Processor M) × List Bool

/-- What an instruction that is left this way has decided: a branch, whether it
is taken. -/
def decided (i : Instruction) (exit : Machine.Exit) : List Bool :=
  if i.opcode.isBranch then [decide (exit ≠ .next)] else []

/-- **One move** of the processor. -/
def Moves (code : List Instruction) (x y : Logged M) : Prop :=
  ∃ i out, code[x.1.index]? = some i ∧ Machine.Step env.behaviour code id x.1 out y.1 ∧
    y.2 = x.2 ++ decided i out.exit

variable {env} {code : List Instruction}

theorem moves_iff {k : Nat} {regs : Temp → BitVec 64} {p : Processor M} {log : List Bool}
    {y : Logged M} :
    env.Moves code (⟨k, regs, p⟩, log) y ↔
      ∃ i out next, code[k]? = some i ∧ env.behaviour.acts i.operation (i.uses.map regs) p out ∧
        out.values.length = i.defs.length ∧ Machine.continueAt code i k out.exit = some next ∧
        y = (⟨next, Machine.writeAll regs i.defs out.values, out.memory⟩,
          log ++ decided i out.exit) := by
  constructor
  · rintro ⟨i, out, hfetched, hstep, hlog⟩
    obtain ⟨d, log'⟩ := y
    obtain rfl : log' = _ := hlog
    cases hstep with
    | @run i' next hfetched' hacts harity hgoes =>
      obtain rfl := Option.some.inj (hfetched.symm.trans hfetched')
      refine ⟨i, out, next, hfetched, hacts, harity, hgoes, ?_⟩
      rw [List.map_id]
  · rintro ⟨i, out, next, hfetched, hacts, harity, hgoes, rfl⟩
    have hstep : Machine.Step env.behaviour code id ⟨k, regs, p⟩ out
        ⟨next, Machine.writeAll regs (i.defs.map id) out.values, out.memory⟩ :=
      .run hfetched hacts harity hgoes
    rw [List.map_id] at hstep
    exact ⟨i, out, hfetched, hstep, rfl⟩

/-- Entering is not for `execute`. -/
theorem execute_enter {op : Operation} (h : op.opcode = .enter) (values : List (BitVec 64))
    (p : Processor M) : env.execute op values p = none := by
  unfold execute
  rw [h]

/-- An operation has one outcome, once it is said how many values it writes. -/
theorem acts_unique {op : Operation} {values : List (BitVec 64)} {p : Processor M}
    {out out' : Machine.Outcome (BitVec 64) (Processor M) Call}
    (h : env.behaviour.acts op values p out) (h' : env.behaviour.acts op values p out')
    (hlength : out.values.length = out'.values.length) : out = out' := by
  obtain h | ⟨henter, n, rfl⟩ := h <;> obtain h' | ⟨henter', n', rfl⟩ := h'
  · exact Option.some.inj (h.symm.trans h')
  · rw [execute_enter henter'] at h
    cases h
  · rw [execute_enter henter] at h'
    cases h'
  · obtain rfl : n = n' := by simpa [straight] using hlength
    rfl

/-- **The processor has no choice.** -/
theorem moves_unique {x y z : Logged M} (hy : env.Moves code x y) (hz : env.Moves code x z) :
    y = z := by
  obtain ⟨⟨k, regs, p⟩, log⟩ := x
  obtain ⟨i, out, next, hfetched, hacts, harity, hgoes, rfl⟩ := moves_iff.mp hy
  obtain ⟨i', out', next', hfetched', hacts', harity', hgoes', rfl⟩ := moves_iff.mp hz
  obtain rfl := Option.some.inj (hfetched.symm.trans hfetched')
  obtain rfl := acts_unique hacts hacts' (harity.trans harity'.symm)
  obtain rfl := Option.some.inj (hgoes.symm.trans hgoes')
  rfl

end Surroundings

end TreeBackend
