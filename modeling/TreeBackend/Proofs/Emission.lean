import TreeBackend.Code.Selection
import TreeBackend.Proofs.Ownership
import TreeBackend.Proofs.Processor
import TreeBackend.Proofs.SuccessfulRuns
import Mathlib.Tactic.FinCases

/-!
# What a selection emits

A selection draws temps and emits instructions, and it looks at nothing but the
number of the next temp. `Emits x n r is m` says so: from the number `n` on, the
selection `x` succeeds with the result `r`, emits the instructions `is`, and
leaves `m` as the next number.

On the other side, `Does` says what straight code does to registers and a
processor. Code selected from `n` on writes temps numbered `n` or higher and
the two registers that calls and divisions write. All other temps are
**settled** at `n`, and keep what they hold (`Keeps`).
-/

namespace TreeBackend

open List Machine Function

/-! ## Emitting -/

/-- The selection emits instructions and draws the temps from one number up to
another. -/
def Emits {α : Type} (x : SelectM α) (n : Nat) (r : α) (is : List Instruction) (m : Nat) : Prop :=
  ∀ s : Selection, s.session.tempCount = n → ∃ s', Yields x s r s' ∧
    s'.code.instructions = s.code.instructions ++ is ∧ s'.session.tempCount = m

namespace Emits

variable {α β : Type} {n k m : Nat} {is js : List Instruction}

/-- Nothing is emitted and nothing drawn. -/
protected theorem pure (r : α) (n : Nat) : Emits (pure r) n r [] n :=
  fun s hs => ⟨s, yields_pure.mpr ⟨rfl, rfl⟩, (append_nil _).symm, hs⟩

/-- Code is emitted in order. -/
protected theorem bind {x : SelectM α} {f : α → SelectM β} {a : α} {b : β}
    (hx : Emits x n a is k) (hf : Emits (f a) k b js m) : Emits (x >>= f) n b (is ++ js) m := by
  intro s hs
  obtain ⟨s₁, hx, his, hk⟩ := hx s hs
  obtain ⟨s₂, hf, hjs, hm⟩ := hf s₁ hk
  refine ⟨s₂, yields_bind.mpr ⟨a, s₁, hx, hf⟩, ?_, hm⟩
  rw [hjs, his, append_assoc]

/-- A result that is only passed on. -/
theorem map {x : SelectM α} {a : α} (hx : Emits x n a is m) (f : α → β) :
    Emits (x >>= fun a => pure (f a)) n (f a) is m := by
  have h := hx.bind (f := fun a => pure (f a)) (Emits.pure (f a) m)
  rwa [append_nil] at h

theorem emit (i : Instruction) (n : Nat) : Emits (Selection.emit i) n () [i] n :=
  fun _ hs => ⟨_, rfl, rfl, hs⟩

/-- A fresh temp has the next number. -/
theorem fresh (name : String) (n : Nat) :
    Emits (Selection.fresh name) n ⟨n, .plain name⟩ [] (n + 1) := by
  intro s hs
  obtain rfl := hs
  exact ⟨_, rfl, (append_nil _).symm, rfl⟩

end Emits

/-! ## Settled temps -/

/-- The temp is **settled** at `n`: code selected from `n` on does not write it. -/
structure Temp.Settled (n : Nat) (t : Temp) : Prop where
  notMem : t ∉ Selection.clobbers
  plain : ∀ name, t.kind = .plain name → t.index < n

namespace Temp.Settled

/-- A temp that is settled stays settled. -/
theorem mono {n m : Nat} {t : Temp} (h : t.Settled n) (hle : n ≤ m) : t.Settled m :=
  ⟨h.notMem, fun name hname => Nat.lt_of_lt_of_le (h.plain name hname) hle⟩

theorem fresh (n : Nat) (name : String) : (⟨n, .plain name⟩ : Temp).Settled (n + 1) :=
  ⟨by simp [Selection.clobbers, Temp.fixed], fun _ _ => Nat.lt_succ_self n⟩

/-- A temp that is still to be drawn is not. -/
theorem not_fresh (n : Nat) (name : String) : ¬ (⟨n, .plain name⟩ : Temp).Settled n :=
  fun h => Nat.lt_irrefl n (h.plain name rfl)

/-- What a session has handed out is settled, except for fixed registers. -/
theorem of_owns {s : Session} {t : Temp} {n : Nat} (h : s.Owns t) (hpinned : t.pinned? = none)
    (hle : s.tempCount ≤ n) : t.Settled n := by
  refine ⟨fun hmem => ?_, fun name hname => ?_⟩
  · obtain rfl | hmem := mem_cons.mp hmem
    · cases hpinned
    · obtain rfl := mem_singleton.mp hmem
      cases hpinned
  · unfold Session.Owns at h
    rw [hname] at h
    exact Nat.lt_of_lt_of_le h hle

end Temp.Settled

/-- The registers keep what is settled at `n`. -/
def Keeps (n : Nat) (regs regs' : Temp → BitVec 64) : Prop :=
  ∀ t : Temp, t.Settled n → regs' t = regs t

namespace Keeps

variable {n m : Nat} {regs regs₁ regs₂ : Temp → BitVec 64}

@[refl] theorem refl (n : Nat) (regs : Temp → BitVec 64) : Keeps n regs regs := fun _ _ => rfl

/-- What both keep is kept altogether. -/
theorem trans (h : Keeps n regs regs₁) (h' : Keeps m regs₁ regs₂) (hle : n ≤ m) :
    Keeps n regs regs₂ :=
  fun t ht => (h' t (ht.mono hle)).trans (h t ht)

/-- A temp that is not settled may be written. -/
theorem update (h : Keeps n regs regs₁) {t : Temp} (ht : ¬ t.Settled n) (v : BitVec 64) :
    Keeps n regs (update regs₁ t v) := by
  intro u hu
  rw [update_of_ne (by rintro rfl; exact ht hu), h u hu]

/-- Trees that look at settled temps only see no difference. -/
theorem agree {M : Type} (h : Keeps n regs regs₁) (p : Processor M) :
    World.Agree (Temp.Settled n) (p.world regs) (p.world regs₁) :=
  ⟨h, rfl, rfl⟩

end Keeps

/-! ## Straight code -/

section Straight

variable {M : Type} (env : Surroundings M)

/-- The instruction does this to registers and processor, and control goes on
with the next one. -/
def Performs (i : Instruction) (regs : Temp → BitVec 64) (p : Processor M)
    (regs' : Temp → BitVec 64) (p' : Processor M) : Prop :=
  ∃ out, env.behaviour.acts i.operation (i.uses.map regs) p out ∧
    out.values.length = i.defs.length ∧ out.exit = .next ∧ i.opcode.fallsThrough = true ∧
    i.opcode.isBranch = false ∧ regs' = writeAll regs i.defs out.values ∧ p' = out.memory

/-- **Straight code** does this to registers and processor. -/
inductive Does : List Instruction → (Temp → BitVec 64) → Processor M → (Temp → BitVec 64) →
    Processor M → Prop where
  | nil (regs : Temp → BitVec 64) (p : Processor M) : Does [] regs p regs p
  | cons {i : Instruction} {is : List Instruction} {regs regs₁ regs₂ : Temp → BitVec 64}
      {p p₁ p₂ : Processor M} (head : Performs env i regs p regs₁ p₁)
      (tail : Does is regs₁ p₁ regs₂ p₂) : Does (i :: is) regs p regs₂ p₂

variable {env} {regs regs₁ regs₂ : Temp → BitVec 64} {p p₁ p₂ : Processor M}
  {is js : List Instruction} {i : Instruction}

theorem Does.single (h : Performs env i regs p regs₁ p₁) : Does env [i] regs p regs₁ p₁ :=
  .cons h (.nil _ _)

/-- Code does what its parts do, one after the other. -/
theorem Does.append (h : Does env is regs p regs₁ p₁) (h' : Does env js regs₁ p₁ regs₂ p₂) :
    Does env (is ++ js) regs p regs₂ p₂ := by
  induction h with
  | nil => exact h'
  | cons head _ ih => exact .cons head (ih h')

/-- Straight code is run through where it stands in code, and decides nothing. -/
theorem Does.moves (h : Does env is regs p regs₁ p₁) (code : List Instruction) {k : Nat}
    (hcode : ∀ j < is.length, code[k + j]? = is[j]?) (log : List Bool) :
    Relation.ReflTransGen (env.Moves code) (⟨k, regs, p⟩, log)
      (⟨k + is.length, regs₁, p₁⟩, log) := by
  induction h generalizing k with
  | nil => exact .refl
  | @cons i is regs regs₁ regs₂ p p₁ p₂ head _ ih =>
    obtain ⟨out, hacts, harity, hexit, hfalls, hbranch, rfl, rfl⟩ := head
    have hfirst : code[k]? = some i := hcode 0 (Nat.succ_pos _)
    have hgoes : continueAt code i k out.exit = some (k + 1) := by
      rw [hexit, continueAt, hfalls]
      rfl
    have hmoves : env.Moves code (⟨k, regs, p⟩, log)
        (⟨k + 1, writeAll regs i.defs out.values, out.memory⟩, log) := by
      refine Surroundings.moves_iff.mpr ⟨i, out, k + 1, hfirst, hacts, harity, hgoes, ?_⟩
      rw [Surroundings.decided, hbranch]
      simp
    have hrest := ih (k := k + 1) fun j hj => by
      rw [Nat.add_right_comm, Nat.add_assoc, hcode (j + 1) (Nat.succ_lt_succ hj)]
      rfl
    rw [Nat.add_right_comm] at hrest
    exact .head hmoves hrest

end Straight

/-- The address a memory operand denotes. -/
def Address.value (regs : Temp → BitVec 64) (a : Address) : BitVec 64 :=
  a.base?.elim 0 regs + a.disp.toBitVec

/-! ## What the instructions perform -/

namespace Performs

variable {M : Type} (env : Surroundings M) (regs : Temp → BitVec 64) (p : Processor M)

theorem mov (dst src : Temp) : Performs env (.mov dst src) regs p (update regs dst (regs src)) p :=
  ⟨_, .inl rfl, rfl, rfl, rfl, rfl, rfl, rfl⟩

theorem movImm (dst : Temp) (n : Int64) :
    Performs env (.movImm dst n) regs p (update regs dst n.toBitVec) p :=
  ⟨_, .inl rfl, rfl, rfl, rfl, rfl, rfl, rfl⟩

theorem movSymbol (dst : Temp) (l : Label) :
    Performs env (.movSymbol dst l) regs p (update regs dst (env.address l)) p :=
  ⟨_, .inl rfl, rfl, rfl, rfl, rfl, rfl, rfl⟩

theorem load (dst : Temp) (a : Address) : Performs env (.load dst a) regs p
      (update regs dst (env.load p.memory (a.value regs))) p := by
  obtain ⟨base?, disp⟩ := a
  cases base? with
  | none | some => exact ⟨_, .inl rfl, rfl, rfl, rfl, rfl, rfl, rfl⟩

theorem store (a : Address) (src : Temp) : Performs env (.store a src) regs p regs
      { p with memory := env.store p.memory (a.value regs) (regs src) } := by
  obtain ⟨base?, disp⟩ := a
  cases base? with
  | none | some => exact ⟨_, .inl rfl, rfl, rfl, rfl, rfl, rfl, rfl⟩

/-- The opcodes of arithmetic on two operands. -/
def arithmetic : List Opcode := [.add, .sub, .and, .or, .xor, .imul]

theorem binary {opcode : Opcode} (h : opcode ∈ arithmetic) (dst src : Temp) :
    Performs env (.binary opcode dst src) regs p
      (update regs dst (Surroundings.combine opcode (regs dst) (regs src))) p := by
  fin_cases h <;> exact ⟨_, .inl rfl, rfl, rfl, rfl, rfl, rfl, rfl⟩

theorem binaryImm {opcode : Opcode} (h : opcode ∈ arithmetic) (dst : Temp) (n : Int64) :
    Performs env (.binaryImm opcode dst n) regs p (update regs dst
        (Surroundings.combine opcode (regs dst) n.toBitVec)) p := by
  fin_cases h <;> exact ⟨_, .inl rfl, rfl, rfl, rfl, rfl, rfl, rfl⟩

theorem imulImm (dst src : Temp) (n : Int64) : Performs env (.imulImm dst src n) regs p
      (update regs dst (regs src * n.toBitVec)) p :=
  ⟨_, .inl rfl, rfl, rfl, rfl, rfl, rfl, rfl⟩

theorem cdq (dividend remainder : Temp) : Performs env (.cdq dividend remainder) regs p
      (update regs remainder (Word.signFill (regs dividend))) p :=
  ⟨_, .inl rfl, rfl, rfl, rfl, rfl, rfl, rfl⟩

/-- The remainder is written last. -/
theorem idiv (divisor dividend remainder : Temp) :
    ∃ quotient, Performs env (.idiv divisor dividend remainder) regs p
      (update (update regs dividend quotient) remainder
        (if regs divisor = 0 then env.modZero (regs dividend)
          else Word.pairRemainder (regs remainder) (regs dividend) (regs divisor))) p :=
  ⟨_, _, .inl rfl, rfl, rfl, rfl, rfl, rfl, rfl⟩

theorem cmp (left right : Temp) :
    Performs env (.cmp left right) regs p regs { p with compared := (regs left, regs right) } :=
  ⟨_, .inl rfl, rfl, rfl, rfl, rfl, rfl, rfl⟩

theorem cmpImm (left : Temp) (n : Int64) : Performs env (.cmpImm left n) regs p regs
      { p with compared := (regs left, n.toBitVec) } :=
  ⟨_, .inl rfl, rfl, rfl, rfl, rfl, rfl, rfl⟩

theorem label (l : Label) : Performs env (.label l) regs p regs p :=
  ⟨_, .inl rfl, rfl, rfl, rfl, rfl, rfl, rfl⟩

end Performs

/-! ## Calls -/

namespace Selection.Callee

/-- The function that is called. -/
def value {M : Type} (env : Surroundings M) (regs : Temp → BitVec 64) (p : Processor M) :
    Callee → BitVec 64
  | direct l => env.address l
  | memory a => env.load p.memory (a.value regs)
  | register t => regs t

/-- The instruction that calls it. -/
def instruction (args : List Temp) : Callee → Instruction
  | direct l => .callDirect l args clobbers
  | memory a => .callMemory a args clobbers
  | register t => .callRegister t args clobbers

end Selection.Callee

/-- A call leaves its answer in the first clobbered register and anything in the
second. -/
theorem Performs.call {M : Type} (env : Surroundings M) (regs : Temp → BitVec 64)
    (p : Processor M) (f : Selection.Callee) (args : List Temp) :
    let after := (p.world regs).call env.host (f.value env regs p) (args.map regs)
    ∃ litter, Performs env (f.instruction args) regs p
      (update (update regs (.fixed .eax) after.1) (.fixed .edx) litter)
      { p with memory := after.2.memory, calls := after.2.calls } := by
  cases f with
  | direct | register => exact ⟨_, _, .inl rfl, rfl, rfl, rfl, rfl, rfl, rfl⟩
  | memory a =>
    obtain ⟨base?, disp⟩ := a
    cases base? with
    | none | some => exact ⟨_, _, .inl rfl, rfl, rfl, rfl, rfl, rfl, rfl⟩

end TreeBackend
