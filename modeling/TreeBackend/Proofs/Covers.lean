import TreeBackend.Proofs.Emission
import TreeBackend.Proofs.TreeEffects

/-!
# Code for expressions

A pure expression is covered in three roles: as a value in a temp, as an
address in a memory operand, and as the function of a call. In each role the
selected code comes to a **reading** – the temp, the operand, the callee – from
which the value of the expression can be read off when the code has run
(`Computes`), and also later, as long as only unsettled temps are written.

There is one lemma for each pattern. Two patterns for one tree agree because
they compute the same word: a constant that is added becomes a displacement,
a subtraction an addition of the negated constant, a constant on the left of a
symmetric operator an immediate on its right.
-/

namespace TreeBackend

open List Machine Selection Function

variable {n : Nat} {regs regs' : Temp → BitVec 64} {op : BinOp} {l : Exp} {opcode : Opcode}
  {M : Type}

/-! ## Readings -/

/-- Where a value can be read off. -/
inductive Reading where
  | value (t : Temp)
  | address (a : Address)
  | callee (f : Callee)

namespace Reading

/-- The value that is read off. -/
def read {M : Type} (env : Surroundings M) (regs : Temp → BitVec 64) (p : Processor M) :
    Reading → BitVec 64
  | value t => regs t
  | address a => a.value regs
  | callee f => f.value env regs p

/-- The temps that are looked at. -/
def temps : Reading → List Temp
  | value t | callee (.register t) => [t]
  | address a | callee (.memory a) => a.base?.toList
  | callee (.direct _) => []

/-- All temps that are looked at are settled. -/
def Settled (n : Nat) (r : Reading) : Prop := ∀ t ∈ r.temps, t.Settled n

theorem address_of_keeps {a : Address} (h : ∀ t ∈ a.base?.toList, t.Settled n)
    (hkeeps : Keeps n regs regs') : a.value regs' = a.value regs := by
  obtain ⟨base?, disp⟩ := a
  cases base? with
  | none => rfl
  | some base =>
    unfold Address.value
    rw [Option.elim_some, Option.elim_some, hkeeps base (h base (by simp))]

/-- What is settled can be read off later. -/
theorem read_of_keeps (env : Surroundings M) (p : Processor M) {r : Reading} (h : r.Settled n)
    (hkeeps : Keeps n regs regs') : r.read env regs' p = r.read env regs p := by
  match r with
  | value t => exact hkeeps t (h t mem_cons_self)
  | address a => exact address_of_keeps h hkeeps
  | callee (.direct l) => rfl
  | callee (.memory a) => exact congrArg (env.load p.memory) (address_of_keeps h hkeeps)
  | callee (.register t) => exact hkeeps t (h t mem_cons_self)

end Reading

/-! ## Code that computes an expression -/

/-- The expression can be covered from `n` on: it is pure, and its temps are
settled. -/
structure Exp.Ready (n : Nat) (e : Exp) : Prop where
  pure : e.isPure = true
  settled : ∀ x ∈ e.nodes, ∀ t ∈ x.temp?, t.Settled n

namespace Exp.Ready

variable {m : Nat} {e : Exp}

/-- The value does not depend on what is not settled. -/
theorem eval_of_keeps (h : e.Ready n) (env : Surroundings M) (p : Processor M)
    (hkeeps : Keeps n regs regs') :
    (e.eval env.host (p.world regs')).1 = (e.eval env.host (p.world regs)).1 :=
  Exp.eval_fst_of_agree h.pure (hkeeps.agree p) h.settled

theorem mono (h : e.Ready n) (hle : n ≤ m) : e.Ready m :=
  ⟨h.pure, fun x hx t ht => (h.settled x hx t ht).mono hle⟩

theorem binop {r : Exp} (h : (Exp.binop op l r).Ready n) : l.Ready n ∧ r.Ready n := by
  obtain ⟨hpure, hsettled⟩ := h
  rw [isPure, Bool.and_eq_true] at hpure
  rw [nodes, Node.forall_mem_parts] at hsettled
  exact ⟨⟨hpure.1, hsettled.2.1⟩, hpure.2, hsettled.2.2⟩

theorem not (h : (Exp.not e).Ready n) : e.Ready n := by
  obtain ⟨hpure, hsettled⟩ := h
  rw [nodes, forall_mem_cons] at hsettled
  exact ⟨hpure, hsettled.2⟩

theorem mem (h : (Exp.mem e).Ready n) : e.Ready n := by
  obtain ⟨hpure, hsettled⟩ := h
  rw [nodes, forall_mem_cons] at hsettled
  exact ⟨hpure, hsettled.2⟩

end Exp.Ready

/-- The code **computes** the expression: when it has run, the value is read off
`r`. Temps from `n` up to `m` are drawn for it. -/
structure Computes (n m : Nat) (is : List Instruction) (e : Exp) (r : Reading) : Prop where
  le : n ≤ m
  plain : ∀ i ∈ is, i.label? = none
  settled : r.Settled m
  runs : ∀ {M : Type} (env : Surroundings M) (regs : Temp → BitVec 64) (p : Processor M),
    ∃ regs', Does env is regs p regs' p ∧ Keeps n regs regs' ∧
      r.read env regs' p = (e.eval env.host (p.world regs)).1

/-- The selection emits code that computes the expression, from any number on. -/
def Realises {α : Type} (x : SelectM α) (reading : α → Reading) (n : Nat) (e : Exp) : Prop :=
  ∀ k, n ≤ k → ∃ a is m, Emits x k a is m ∧ Computes k m is e (reading a)

/-- Two computations, one after the other: both values can be read off in the
end. -/
theorem Computes.pair {k m : Nat} {is js : List Instruction} {r : Exp} {rl rr : Reading}
    (hl : Computes n k is l rl) (hr : Computes k m js r rr) (hready : r.Ready n)
    (env : Surroundings M) (regs : Temp → BitVec 64) (p : Processor M) :
    ∃ regs', Does env (is ++ js) regs p regs' p ∧ Keeps n regs regs' ∧
      rl.read env regs' p = (l.eval env.host (p.world regs)).1 ∧
      rr.read env regs' p = (r.eval env.host (p.world regs)).1 := by
  obtain ⟨regs₁, hdoes₁, hkeeps₁, hread₁⟩ := hl.runs env regs p
  obtain ⟨regs₂, hdoes₂, hkeeps₂, hread₂⟩ := hr.runs env regs₁ p
  refine ⟨regs₂, hdoes₁.append hdoes₂, hkeeps₁.trans hkeeps₂ hl.le, ?_, ?_⟩
  · rw [Reading.read_of_keeps env p hl.settled hkeeps₂, hread₁]
  · rw [hread₂, hready.eval_of_keeps env p hkeeps₁]

/-! ## Patterns for values -/

theorem Instruction.label?_binary (opcode : Opcode) (dst src : Temp) :
    (binary opcode dst src).label? = none := by
  cases opcode <;> rfl

theorem Instruction.label?_binaryImm (opcode : Opcode) (dst : Temp) (n : Int64) :
    (binaryImm opcode dst n).label? = none := by
  cases opcode <;> rfl

namespace Realises

variable {e r : Exp} {left right : SelectM Temp}

/-- A temp holds its value. -/
theorem temp {t : Temp} (h : (Exp.temp t).Ready n) : Realises (pure t) .value n (.temp t) := by
  intro k hk
  refine ⟨t, [], k, .pure t k, Nat.le_refl k, by simp, fun u hu => ?_, fun env regs p => ?_⟩
  · obtain rfl := mem_singleton.mp hu
    exact (h.settled _ mem_cons_self u rfl).mono hk
  · exact ⟨regs, .nil regs p, .refl k regs, rfl⟩

/-- One instruction sets a new temp. -/
theorem set {name : String} {i : Temp → Instruction} (hlabel : ∀ t, (i t).label? = none)
    (hperforms : ∀ {M : Type} (env : Surroundings M) (regs : Temp → BitVec 64) (p : Processor M) t,
      Performs env (i t) regs p (update regs t (e.eval env.host (p.world regs)).1) p) :
    Realises (do let t ← fresh name; emit (i t); pure t) .value n e := by
  intro k hk
  refine ⟨⟨k, .plain name⟩, [i ⟨k, .plain name⟩], k + 1, ?_, Nat.le_succ k, by simpa using hlabel _,
    ?_, fun env regs p => ?_⟩
  · exact (Emits.fresh name k).bind ((Emits.emit _ _).bind (.pure _ _))
  · intro u hu
    obtain rfl := mem_singleton.mp hu
    exact .fresh k name
  · refine ⟨_, .single (hperforms env regs p _), (Keeps.refl k regs).update ?_ _, ?_⟩
    · exact Temp.Settled.not_fresh k name
    · exact update_self ..

/-- A new temp is set from one value. The value may be read off until then: the
new temp is not among those it is read off. -/
theorem unary {α : Type} {x : SelectM α} {reading : α → Reading} {z : α → SelectM Temp}
    (name : String) (code : α → Temp → List Instruction) (hx : Realises x reading n l)
    (hz : ∀ a k, Emits (z a) k ⟨k, .plain name⟩ (code a ⟨k, .plain name⟩) (k + 1))
    (hplain : ∀ a t, ∀ i ∈ code a t, i.label? = none)
    (hdoes : ∀ {M : Type} (env : Surroundings M) (regs : Temp → BitVec 64) (p : Processor M) a t,
      ∃ v, Does env (code a t) regs p (update regs t v) p ∧
        ∀ w : World (BitVec 64) M, w.memory = p.memory →
          (reading a).read env regs p = (l.eval env.host w).1 → v = (e.eval env.host w).1) :
    Realises (x >>= z) .value n e := by
  intro k hk
  obtain ⟨a, is, m, hemits, hcomputes⟩ := hx k hk
  refine ⟨⟨m, .plain name⟩, is ++ code a ⟨m, .plain name⟩, m + 1, hemits.bind (hz a m),
    Nat.le_succ_of_le hcomputes.le, forall_mem_append.mpr ⟨hcomputes.plain, hplain a _⟩, ?_,
    fun env regs p => ?_⟩
  · intro u hu
    obtain rfl := mem_singleton.mp hu
    exact .fresh m name
  · obtain ⟨regs₁, hdoes₁, hkeeps, hread⟩ := hcomputes.runs env regs p
    obtain ⟨v, hdoes₂, hv⟩ := hdoes env regs₁ p a ⟨m, .plain name⟩
    refine ⟨_, hdoes₁.append hdoes₂, hkeeps.update (fun hsettled => ?_) v, ?_⟩
    · exact Temp.Settled.not_fresh m name (hsettled.mono hcomputes.le)
    · show update regs₁ ⟨m, .plain name⟩ v ⟨m, .plain name⟩ = _
      rw [update_self]
      exact hv (p.world regs) rfl hread

/-- A memory read. -/
theorem mem {x : SelectM Address} {a : Exp} (hx : Realises x .address n a)
    (hpure : a.isPure = true) :
    Realises (do
      let address ← x
      let t ← fresh "load"
      emit (.load t address)
      return t) .value n (.mem a) := by
  refine unary "load" (fun address t => [.load t address]) hx (fun address k => ?_)
    (fun address t => forall_mem_singleton.mpr rfl)
    fun env regs p address t => ⟨_, .single (.load env regs p t address), fun w hmemory hread => ?_⟩
  · exact (Emits.fresh "load" k).bind ((Emits.emit _ _).bind (.pure _ _))
  · rw [Exp.eval, Exp.eval_snd_of_isPure hpure, hmemory]
    exact congrArg (env.load p.memory) hread

/-- A copy that is combined with a constant. -/
theorem arithmeticImm {opcode : Opcode} (hopcode : opcode ∈ Performs.arithmetic) (name : String)
    (c : Int64) (hx : Realises left .value n l)
    (heval : ∀ {M : Type} (env : Surroundings M) (w : World (BitVec 64) M), (e.eval env.host w).1
        = Surroundings.combine opcode (l.eval env.host w).1 c.toBitVec) :
    Realises (Selection.arithmeticImm opcode name left c) .value n e := by
  refine unary name (fun a t => [.mov t a, .binaryImm opcode t c]) hx (fun a k => ?_)
    (fun a t => ?_) fun env regs p a t => ?_
  · exact (Emits.fresh name k).bind ((Emits.emit _ _).bind ((Emits.emit _ _).bind (.pure _ _)))
  · rw [forall_mem_cons, forall_mem_singleton]
    exact ⟨rfl, Instruction.label?_binaryImm opcode t c⟩
  · refine ⟨Surroundings.combine opcode (regs a) c.toBitVec, ?_, fun w _ hread => ?_⟩
    · have hlast := Performs.binaryImm env (update regs t (regs a)) p hopcode t c
      rw [update_self, update_idem] at hlast
      exact .cons (.mov env regs p t a) (.single hlast)
    · rw [heval env w, ← hread]
      rfl

/-- A product with a constant. -/
theorem product (c : Int64) (hx : Realises left .value n l)
    (heval : ∀ {M : Type} (env : Surroundings M) (w : World (BitVec 64) M),
      (e.eval env.host w).1 = (l.eval env.host w).1 * c.toBitVec) :
    Realises (Selection.product left c) .value n e := by
  refine unary "mul" (fun a t => [.imulImm t a c]) hx (fun a k => ?_)
    (fun a t => forall_mem_singleton.mpr rfl)
    fun env regs p a t => ⟨_, .single (.imulImm env regs p t a c), fun w _ hread => ?_⟩
  · exact (Emits.fresh "mul" k).bind ((Emits.emit _ _).bind (.pure _ _))
  · rw [heval env w, ← hread]
    rfl

/-- A negation. -/
theorem not {x : SelectM Temp} (hx : Realises x .value n l) : Realises (do
      let s ← x
      let t ← fresh "not"
      emit (.mov t s)
      emit (.binaryImm .xor t 1)
      return t) .value n (.not l) :=
  arithmeticImm (by decide) "not" 1 hx fun env w => rfl

/-- A new temp is set from two values. -/
theorem both {z : Temp → Temp → SelectM Temp} (name : String)
    (code : Temp → Temp → Temp → List Instruction) (hl : Realises left .value n l)
    (hr : Realises right .value n r) (hready : r.Ready n)
    (hz : ∀ a b k, Emits (z a b) k ⟨k, .plain name⟩ (code a b ⟨k, .plain name⟩) (k + 1))
    (hplain : ∀ a b t, ∀ i ∈ code a b t, i.label? = none)
    (hdoes : ∀ {M : Type} (env : Surroundings M) (regs : Temp → BitVec 64) (p : Processor M)
      {a b t : Temp} {k : Nat}, a.Settled k → b.Settled k → ¬ t.Settled k →
        ∃ regs', Does env (code a b t) regs p regs' p ∧ Keeps k regs regs' ∧
          ∀ w : World (BitVec 64) M, regs a = (l.eval env.host w).1 →
            regs b = (r.eval env.host w).1 → regs' t = (e.eval env.host w).1) :
    Realises (do let a ← left; let b ← right; z a b) .value n e := by
  intro k hk
  obtain ⟨a, is, m, hemits, hcomputes⟩ := hl k hk
  obtain ⟨b, js, m', hemits', hcomputes'⟩ := hr m (Nat.le_trans hk hcomputes.le)
  refine ⟨⟨m', .plain name⟩, is ++ (js ++ code a b ⟨m', .plain name⟩), m' + 1,
    hemits.bind (hemits'.bind (hz a b m')),
    Nat.le_succ_of_le (Nat.le_trans hcomputes.le hcomputes'.le), ?_, ?_, fun env regs p => ?_⟩
  · simp only [forall_mem_append]
    exact ⟨hcomputes.plain, hcomputes'.plain, hplain a b _⟩
  · intro u hu
    obtain rfl := mem_singleton.mp hu
    exact .fresh m' name
  · obtain ⟨regs₁, hdoes₁, hkeeps₁, ha, hb⟩ := hcomputes.pair hcomputes' (hready.mono hk) env regs p
    obtain ⟨regs₂, hdoes₂, hkeeps₂, hv⟩ := hdoes env regs₁ p
      ((hcomputes.settled a mem_cons_self).mono hcomputes'.le)
      (hcomputes'.settled b mem_cons_self) (Temp.Settled.not_fresh m' name)
    rw [← append_assoc]
    exact ⟨regs₂, hdoes₁.append hdoes₂,
      hkeeps₁.trans hkeeps₂ (Nat.le_trans hcomputes.le hcomputes'.le), hv _ ha hb⟩

/-- A copy of the left value that is combined with the right one. -/
theorem arithmetic {opcode : Opcode} (hopcode : opcode ∈ Performs.arithmetic) (name : String)
    (hl : Realises left .value n l) (hr : Realises right .value n r) (hready : r.Ready n)
    (heval : ∀ {M : Type} (env : Surroundings M) (w : World (BitVec 64) M), (e.eval env.host w).1
        = Surroundings.combine opcode (l.eval env.host w).1 (r.eval env.host w).1) :
    Realises (Selection.arithmetic opcode name left right) .value n e := by
  refine both name (fun a b t => [.mov t a, .binary opcode t b]) hl hr hready (fun a b k => ?_)
    (fun a b t => ?_) fun env regs p a b t k ha hb ht => ?_
  · exact (Emits.fresh name k).bind ((Emits.emit _ _).bind ((Emits.emit _ _).bind (.pure _ _)))
  · rw [forall_mem_cons, forall_mem_singleton]
    exact ⟨rfl, Instruction.label?_binary opcode t b⟩
  · have hbt : b ≠ t := by
      rintro rfl
      exact ht hb
    have hlast := Performs.binary env (update regs t (regs a)) p hopcode t b
    rw [update_self, update_of_ne hbt, update_idem] at hlast
    refine ⟨_, .cons (.mov env regs p t a) (.single hlast), (Keeps.refl k regs).update ht _,
      fun w hva hvb => ?_⟩
    rw [update_self, heval env w, ← hva, ← hvb]

/-- **A remainder**, by way of the registers that a division works on. -/
theorem remainder (hl : Realises left .value n l) (hr : Realises right .value n r)
    (hready : r.Ready n)
    (heval : ∀ {M : Type} (env : Surroundings M) (w : World (BitVec 64) M),
      (e.eval env.host w).1 = env.remainder (l.eval env.host w).1 (r.eval env.host w).1) :
    Realises (Selection.remainder left right) .value n e := by
  refine both "mod" (fun a b t => [.mov (.fixed .eax) a, .cdq (.fixed .eax) (.fixed .edx),
    .idiv b (.fixed .eax) (.fixed .edx), .mov t (.fixed .edx)]) hl hr hready (fun a b k => ?_)
    (fun a b t => ?_) fun env regs p a b t k ha hb ht => ?_
  · exact (Emits.emit _ _).bind ((Emits.emit _ _).bind ((Emits.emit _ _).bind
      ((Emits.fresh "mod" k).bind ((Emits.emit _ _).bind (.pure _ _)))))
  · simp [Instruction.label?, Instruction.mov, Instruction.cdq, Instruction.idiv]
  · have hbeax : b ≠ .fixed .eax := fun heq => hb.notMem (by simp [heq, clobbers])
    have hbedx : b ≠ .fixed .edx := fun heq => hb.notMem (by simp [heq, clobbers])
    have heax : ¬ (Temp.fixed .eax).Settled k := fun h => h.notMem (by simp [clobbers])
    have hedx : ¬ (Temp.fixed .edx).Settled k := fun h => h.notMem (by simp [clobbers])
    have hne : Temp.fixed .eax ≠ .fixed .edx := by decide
    -- the pair holds the dividend, extended by its sign
    let pair := update (update regs (.fixed .eax) (regs a)) (.fixed .edx) (Word.signFill (regs a))
    have hlow : pair (.fixed .eax) = regs a := by
      show update (update _ _ _) _ _ _ = _
      rw [update_of_ne hne, update_self]
    have hhigh : pair (.fixed .edx) = Word.signFill (regs a) := update_self ..
    have hdivisor : pair b = regs b := by
      show update (update _ _ _) _ _ _ = _
      rw [update_of_ne hbedx, update_of_ne hbeax]
    have hcdq := Performs.cdq env (update regs (.fixed .eax) (regs a)) p (.fixed .eax) (.fixed .edx)
    -- the divisor is settled, so it is still there when the pair has been written
    obtain ⟨quotient, hidiv⟩ := Performs.idiv env pair p b (.fixed .eax) (.fixed .edx)
    rw [hlow, hhigh, hdivisor, Word.pairRemainder_signFill] at hidiv
    refine ⟨_, .cons (.mov env regs p _ a) (.cons hcdq (.cons hidiv (.single
      (.mov env _ p t (.fixed .edx))))), ?_, fun w hva hvb => ?_⟩
    · exact (((((Keeps.refl k regs).update heax _).update hedx _).update heax _).update
        hedx _).update ht _
    · rw [update_self, update_self, heval env w, ← hva, ← hvb]
      rfl

/-- What a binary operator denotes when its left operand is pure. -/
theorem eval_binop {V : Type} (host : Host V M) (h : l.isPure = true) (op : BinOp) (r : Exp)
    (w : World V M) :
    ((Exp.binop op l r).eval host w).1 = host.binop op (l.eval host w).1 (r.eval host w).1 := by
  rw [Exp.eval, Exp.eval_snd_of_isPure h]

/-- An operator of one instruction, with a constant for an immediate where
there is one. -/
theorem additive {op : BinOp} {opcode : Opcode} (hopcode : opcode ∈ Performs.arithmetic)
    (hop : ∀ {M : Type} (env : Surroundings M) x y,
      env.operator op x y = Surroundings.combine opcode x y)
    (hsymmetric : op.isSymmetric = true → ∀ x y,
      Surroundings.combine opcode x y = Surroundings.combine opcode y x)
    (hready : (Exp.binop op l r).Ready n) (hl : Realises left .value n l)
    (hr : Realises right .value n r) :
    Realises (Selection.additive op opcode l r left right) .value n (.binop op l r) := by
  have heval {M : Type} (env : Surroundings M) (w : World (BitVec 64) M) :
      ((Exp.binop op l r).eval env.host w).1
        = Surroundings.combine opcode (l.eval env.host w).1 (r.eval env.host w).1 :=
    (eval_binop env.host hready.binop.1.pure op r w).trans (hop env _ _)
  unfold Selection.additive
  split
  · exact arithmeticImm hopcode _ _ hl heval
  · split
    · next hsymm =>
      refine arithmeticImm hopcode _ _ hr fun env w => ?_
      rw [heval env w, hsymmetric hsymm]
      rfl
    · exact arithmetic hopcode _ hl hr hready.binop.2 heval
  · exact arithmetic hopcode _ hl hr hready.binop.2 heval

/-- **Every operator** has a pattern. -/
theorem operation (hready : (Exp.binop op l r).Ready n) (hl : Realises left .value n l)
    (hr : Realises right .value n r) :
    Realises (Selection.operation op l r left right) .value n (.binop op l r) := by
  have heval {M : Type} (env : Surroundings M) (w : World (BitVec 64) M) :
      ((Exp.binop op l r).eval env.host w).1
        = env.operator op (l.eval env.host w).1 (r.eval env.host w).1 :=
    eval_binop env.host hready.binop.1.pure op r w
  cases op with
  | plus => exact additive (by decide) (fun _ _ _ => rfl) (fun _ => BitVec.add_comm) hready hl hr
  | minus => exact additive (by decide) (fun _ _ _ => rfl) (fun h => by cases h) hready hl hr
  | and => exact additive (by decide) (fun _ _ _ => rfl) (fun _ => BitVec.and_comm) hready hl hr
  | or => exact additive (by decide) (fun _ _ _ => rfl) (fun _ => BitVec.or_comm) hready hl hr
  | mul =>
    simp only [Selection.operation]
    split
    · exact product _ hl heval
    · refine product _ hr fun env w => ?_
      exact BitVec.mul_comm _ _
    · exact arithmetic (by decide) _ hl hr hready.binop.2 heval
  | mod => exact remainder hl hr hready.binop.2 heval

/-! ## Patterns for addresses and functions -/

/-- An address at a displacement from a value. -/
theorem displace {e : Exp} (c : Int64) (hx : Realises left .value n l)
    (heval : ∀ {M : Type} (env : Surroundings M) (w : World (BitVec 64) M),
      (e.eval env.host w).1 = (l.eval env.host w).1 + c.toBitVec) :
    Realises (do return ⟨some (← left), c⟩) .address n e := by
  intro k hk
  obtain ⟨t, is, m, hemits, hcomputes⟩ := hx k hk
  refine ⟨⟨some t, c⟩, is, m, hemits.map _, hcomputes.le, hcomputes.plain, hcomputes.settled,
    fun env regs p => ?_⟩
  obtain ⟨regs', hdoes, hkeeps, hread⟩ := hcomputes.runs env regs p
  refine ⟨regs', hdoes, hkeeps, ?_⟩
  rw [heval env, ← hread]
  rfl

/-- The address that an operator denotes. -/
theorem displaced {whole : SelectM Temp} (hready : (Exp.binop op l r).Ready n)
    (hl : Realises left .value n l) (hr : Realises right .value n r)
    (hwhole : Realises whole .value n (.binop op l r)) :
    Realises (Selection.displaced op l r left right whole) .address n (.binop op l r) := by
  have heval {M : Type} (env : Surroundings M) (w : World (BitVec 64) M) :
      ((Exp.binop op l r).eval env.host w).1
        = env.operator op (l.eval env.host w).1 (r.eval env.host w).1 :=
    eval_binop env.host hready.binop.1.pure op r w
  have hcomputed : Realises (do return ⟨some (← whole), 0⟩) .address n (.binop op l r) :=
    displace 0 hwhole fun env w => (BitVec.add_zero _).symm
  unfold Selection.displaced
  split
  · exact displace _ hl heval
  · refine displace _ hr fun env w => ?_
    exact BitVec.add_comm _ _
  · split
    · exact hcomputed
    · -- subtracting a constant is adding its negation
      refine displace _ hl fun env w => ?_
      rw [heval env w, Int64.toBitVec_neg, ← BitVec.sub_eq_add_neg]
      rfl
  · exact hcomputed

/-- A constant is an absolute address. -/
theorem absolute (c : Int64) (n : Nat) : Realises (return ⟨none, c⟩) .address n (.const c) := by
  intro k hk
  refine ⟨⟨none, c⟩, [], k, .pure _ k, Nat.le_refl k, by simp,
    by simp [Reading.Settled, Reading.temps],
    fun env regs p => ⟨regs, .nil regs p, .refl k regs, ?_⟩⟩
  exact BitVec.zero_add _

/-- A name is the function it names. -/
theorem direct (l : Label) (n : Nat) : Realises (return .direct l) .callee n (.name l) := by
  intro k hk
  exact ⟨.direct l, [], k, .pure _ k, Nat.le_refl k, by simp,
    by simp [Reading.Settled, Reading.temps],
    fun env regs p => ⟨regs, .nil regs p, .refl k regs, rfl⟩⟩

/-- A function may be called where its address stands in memory. -/
theorem memory {a : SelectM Address} (h : Realises a .address n e) (hpure : e.isPure = true) :
    Realises (do return .memory (← a)) .callee n (.mem e) := by
  intro k hk
  obtain ⟨address, is, m, hemits, hcomputes⟩ := h k hk
  refine ⟨.memory address, is, m, hemits.map _, hcomputes.le, hcomputes.plain, hcomputes.settled,
    fun env regs p => ?_⟩
  obtain ⟨regs', hdoes, hkeeps, hread⟩ := hcomputes.runs env regs p
  refine ⟨regs', hdoes, hkeeps, ?_⟩
  rw [Exp.eval, Exp.eval_snd_of_isPure hpure, ← hread]
  rfl

end Realises

/-- The expression is covered in all its roles. -/
structure Selection.Cover.Covers (c : Cover) (n : Nat) (e : Exp) : Prop where
  value : Realises c.value .value n e
  address : Realises c.address .address n e
  callee : Realises c.callee .callee n e

namespace Selection.Cover.Covers

variable {e : Exp}

/-- A value in a temp is an address and a function, too. -/
theorem ofValue {v : SelectM Temp} (h : Realises v .value n e) : (Cover.ofValue v).Covers n e where
  value := h
  address := Realises.displace 0 h fun env w => (BitVec.add_zero _).symm
  callee k hk := by
    obtain ⟨t, is, m, hemits, hcomputes⟩ := h k hk
    exact ⟨.register t, is, m, hemits.map _, hcomputes.le, hcomputes.plain, hcomputes.settled,
      hcomputes.runs⟩

end Selection.Cover.Covers

/-- **Pure expressions are covered**, in all their roles. -/
theorem Exp.cover_covers {e : Exp} (h : e.Ready n) : e.cover.Covers n e := by
  have hpure := h.pure
  induction e using Exp.isPure.induct with
  | case1 c =>
    exact { Cover.Covers.ofValue (e := .const c) (.set (i := fun t => .movImm t c) (fun _ => rfl)
      fun env regs p t => .movImm env regs p t c) with address := .absolute c n }
  | case2 l =>
    exact { Cover.Covers.ofValue (e := .name l) (.set (i := fun t => .movSymbol t l) (fun _ => rfl)
      fun env regs p t => .movSymbol env regs p t l) with callee := .direct l n }
  | case3 t => exact .ofValue (.temp h)
  | case4 op l r ihl ihr =>
    have hl := ihl h.binop.1 h.binop.1.pure
    have hr := ihr h.binop.2 h.binop.2.pure
    have hwhole := Realises.operation h hl.value hr.value
    exact { Cover.Covers.ofValue hwhole with address := .displaced h hl.value hr.value hwhole }
  | case5 e ih => exact .ofValue (.not (ih h.not h.not.pure).value)
  | case6 a ih =>
    have ha := ih h.mem h.mem.pure
    exact { Cover.Covers.ofValue (.mem ha.address h.mem.pure) with
      callee := .memory ha.address h.mem.pure }
  | case7 | case8 => cases hpure

end TreeBackend
