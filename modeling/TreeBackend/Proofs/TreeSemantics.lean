import TreeBackend.Proofs.Simulation
import TreeBackend.Tree.Linear
import Mathlib.Logic.Function.Basic

/-!
# What trees mean

Trees are run here, from left to right: the operands of an expression in the
order they stand in, the address of a store before the value that is stored, a
statement that hides in an expression before the value that comes after it.

What a tree computes *with* is left open. A `Host` says what constants, names
and operators denote, how memory is read and written, and what a call answers –
which may depend on all calls made before and on the memory found, and may
change the memory. A **world** is what a tree runs in: the content of the
temps, the memory, and the calls made so far, in order. What is proved here and
in the modules that build on this one holds for every host, whatever its values
and its memory are.

A body is run statement by statement. A jump goes to the first place of its
label, and leaves the body if the body places no such label.
-/

namespace TreeBackend

/-- What lies outside of trees: what their symbols denote, how memory works,
and who answers calls. -/
structure Host (V M : Type) where
  const : Int64 → V
  name : Label → V
  binop : BinOp → V → V → V
  not : V → V
  holds : RelOp → V → V → Bool
  /-- The word at an address. -/
  load : M → V → V
  /-- The memory after a word is written at an address. -/
  store : M → V → V → M
  /-- The answer to a call, and the memory after it, from the calls made
  before, the memory found, the function and the arguments. -/
  answer : List (V × List V) → M → V → List V → V × M

/-- What a tree runs in. -/
structure World (V M : Type) where
  temps : Temp → V
  memory : M
  /-- The calls made so far, each with its function and arguments. -/
  calls : List (V × List V)

namespace World

variable {V M : Type}

/-- Write a temp. -/
def set (w : World V M) (t : Temp) (v : V) : World V M :=
  { w with temps := Function.update w.temps t v }

/-- Write a word. -/
def store (host : Host V M) (w : World V M) (address v : V) : World V M :=
  { w with memory := host.store w.memory address v }

/-- Make a call. -/
def call (host : Host V M) (w : World V M) (f : V) (args : List V) : V × World V M :=
  let answer := host.answer w.calls w.memory f args
  (answer.1, { w with memory := answer.2, calls := w.calls ++ [(f, args)] })

/-- The worlds **agree** on some temps: they differ in nothing but the others. -/
structure Agree (on : Temp → Prop) (w u : World V M) : Prop where
  temps : ∀ t, on t → u.temps t = w.temps t
  memory : u.memory = w.memory
  calls : u.calls = w.calls

namespace Agree

variable {on : Temp → Prop} {w u : World V M}

@[refl] theorem refl (w : World V M) : Agree on w w := ⟨fun _ _ => rfl, rfl, rfl⟩

theorem imp {on' : Temp → Prop} (h : Agree on w u) (himp : ∀ t, on' t → on t) : Agree on' w u :=
  ⟨fun t ht => h.temps t (himp t ht), h.memory, h.calls⟩

/-- A temp may be written to in one of the worlds if nobody looks at it. -/
theorem set_of_not (h : Agree on w u) {t : Temp} (ht : ¬ on t) (v : V) :
    Agree on w (u.set t v) := by
  refine ⟨fun t' ht' => ?_, h.memory, h.calls⟩
  show Function.update u.temps t v t' = w.temps t'
  rw [Function.update_of_ne (by rintro rfl; exact ht ht'), h.temps t' ht']

/-- Worlds that agree still do after the same value is written to one temp. -/
theorem set (h : Agree on w u) (t : Temp) (v : V) : Agree on (w.set t v) (u.set t v) := by
  refine ⟨fun t' ht' => ?_, h.memory, h.calls⟩
  show Function.update u.temps t v t' = Function.update w.temps t v t'
  by_cases heq : t' = t
  · rw [heq, Function.update_self, Function.update_self]
  · rw [Function.update_of_ne heq, Function.update_of_ne heq, h.temps t' ht']

theorem store (h : Agree on w u) (host : Host V M) (address v : V) :
    Agree on (w.store host address v) (u.store host address v) :=
  ⟨h.temps, congrArg (host.store · address v) h.memory, h.calls⟩

end Agree

/-- The same result, in worlds that agree. -/
structure SameResult {α : Type} (on : Temp → Prop) (x y : α × World V M) : Prop where
  value : y.1 = x.1
  world : Agree on x.2 y.2

/-- What agrees on more agrees on less. -/
theorem SameResult.trans {α : Type} {on on' : Temp → Prop} {x y z : α × World V M}
    (h : SameResult on x y) (h' : SameResult on' y z) (himp : ∀ t, on t → on' t) :
    SameResult on x z where
  value := h'.value.trans h.value
  world := {
    temps t ht := (h'.world.temps t (himp t ht)).trans (h.world.temps t ht)
    memory := h'.world.memory.trans h.world.memory
    calls := h'.world.calls.trans h.world.calls }

/-- A call cannot tell worlds that agree apart. -/
theorem Agree.call {on : Temp → Prop} {w u : World V M} (h : Agree on w u) (host : Host V M)
    (f : V) (args : List V) : SameResult on (w.call host f args) (u.call host f args) := by
  have hanswer : host.answer u.calls u.memory f args = host.answer w.calls w.memory f args := by
    rw [h.calls, h.memory]
  unfold World.call
  rw [hanswer, h.calls]
  exact ⟨rfl, h.temps, rfl, rfl⟩

end World

section Evaluation

variable {V M : Type} (host : Host V M)

mutual

/-- The value of an expression, and the world after it. -/
def Exp.eval : Exp → World V M → V × World V M
  | .const n, w => (host.const n, w)
  | .name l, w => (host.name l, w)
  | .temp t, w => (w.temps t, w)
  | .binop op l r, w =>
    let x := l.eval w
    let y := r.eval x.2
    (host.binop op x.1 y.1, y.2)
  | .not e, w =>
    let x := e.eval w
    (host.not x.1, x.2)
  | .mem address, w =>
    let a := address.eval w
    (host.load a.2.memory a.1, a.2)
  | .call f args, w =>
    let g := f.eval w
    let xs := Exp.evalAll args g.2
    xs.2.call host g.1 xs.1
  | .eseq s e, w => e.eval (s.exec w)

/-- The values of expressions, evaluated in order. -/
def Exp.evalAll : List Exp → World V M → List V × World V M
  | [], w => ([], w)
  | e :: es, w =>
    let x := e.eval w
    let xs := Exp.evalAll es x.2
    (x.1 :: xs.1, xs.2)

/-- Assign what `src` computes to the place `dst` denotes. The address of a
word is evaluated first, and the statements that hide in `dst` before it. -/
def Exp.assign : Exp → (World V M → V × World V M) → World V M → World V M
  | .temp t, src, w =>
    let x := src w
    x.2.set t x.1
  | .mem address, src, w =>
    let a := address.eval w
    let x := src a.2
    x.2.store host a.1 x.1
  | .eseq s dst, src, w => dst.assign src (s.exec w)
  | .const _, _, w | .name _, _, w | .binop .., _, w | .not _, _, w | .call .., _, w => w

/-- The world after a statement. Where control goes is not said here: a jump
does nothing, and a branch only evaluates what it compares. -/
def Stm.exec : Stm → World V M → World V M
  | .move dst src, w => dst.assign (Exp.eval src) w
  | .exp e, w => (e.eval w).2
  | .jump _, w | .label _, w => w
  | .cjump _ l r _, w => (r.eval (l.eval w).2).2
  | .seq a b, w => b.exec (a.exec w)

end

/-- The world after statements, one after the other. -/
def Stm.execAll (stms : List Stm) (w : World V M) : World V M :=
  stms.foldl (fun w s => s.exec host w) w

@[simp] theorem Stm.execAll_cons (s : Stm) (stms : List Stm) (w : World V M) :
    Stm.execAll host (s :: stms) w = Stm.execAll host stms (s.exec host w) := rfl

@[simp] theorem Stm.execAll_append (stms stms' : List Stm) (w : World V M) :
    Stm.execAll host (stms ++ stms') w = Stm.execAll host stms' (Stm.execAll host stms w) :=
  List.foldl_append

end Evaluation

/-! ## Bodies -/

/-- Where control stands in a body. -/
inductive Control where
  /-- Before a statement, or past the last one. -/
  | before (index : Nat)
  /-- Out of the body, at a label that the body does not place. -/
  | away (label : Label)
  deriving DecidableEq, Repr

/-- The world after a statement, and the label at which control goes on – if it
does not go on with the next statement. -/
def Stm.turn {V M : Type} (host : Host V M) : Stm → World V M → Option Label × World V M
  | .jump l, w => (some l, w)
  | .cjump rel l r target, w =>
    let x := l.eval host w
    let y := r.eval host x.2
    (if host.holds rel x.1 y.1 then some target else none, y.2)
  | .move dst src, w => (none, (Stm.move dst src).exec host w)
  | .exp e, w => (none, (Stm.exp e).exec host w)
  | .label l, w => (none, (Stm.label l).exec host w)
  | .seq a b, w => (none, (Stm.seq a b).exec host w)

namespace Body

/-- The place of a label: where it stands first. -/
def place? (body : List Stm) (l : Label) : Option Nat := body.findIdx? fun s => s.placed? = some l

/-- Where a jump leads. -/
def landing (body : List Stm) (l : Label) : Control := (place? body l).elim (.away l) .before

/-- Where control goes from the statement at `index`. -/
def onward (body : List Stm) (index : Nat) : Option Label → Control
  | none => .before (index + 1)
  | some l => landing body l

/-- A body at work: where control stands, and the world. -/
structure State (V M : Type) where
  control : Control
  world : World V M

variable {V M : Type} (host : Host V M)

/-- **One step** of a body; none is left past its end and out of it. -/
def step? (body : List Stm) : State V M → Option (State V M)
  | ⟨.before index, w⟩ => body[index]?.map fun s =>
    let turn := s.turn host w
    ⟨onward body index turn.1, turn.2⟩
  | ⟨.away _, _⟩ => none

/-- The second state is the next after the first. -/
def Step (body : List Stm) (c c' : State V M) : Prop := step? host body c = some c'

/-- The body, run from its first statement in the world `w`, **ends** in the
world `w'`: past the last statement, or by leaving for the label `exit`. -/
def Ends (body : List Stm) (w : World V M) (exit : Option Label) (w' : World V M) : Prop :=
  Relation.ReflTransGen (Step host body) ⟨.before 0, w⟩ ⟨exit.elim (.before body.length) .away, w'⟩

/-- The body, run from its first statement, comes to have made the calls
`trace`, in this order, whether it ends or not. -/
def Calls (body : List Stm) (w : World V M) (trace : List (V × List V)) : Prop :=
  ∃ c, Relation.ReflTransGen (Step host body) ⟨.before 0, w⟩ c ∧ trace <+: c.world.calls

variable {host} {body : List Stm}

/-- How many statements are left if control does not jump. -/
def remaining (body : List Stm) (c : State V M) : Nat := match c.control with
  | .before index => body.length - index
  | .away _ => 0

theorem inside_onward {k : Nat} (hk : k < body.length) (goes : Option Label) :
    ∀ index, onward body k goes = .before index → index ≤ body.length := by
  intro index hindex
  cases goes with
  | none =>
    obtain rfl := Control.before.inj hindex
    exact hk
  | some l =>
    replace hindex : (place? body l).elim (.away l) .before = Control.before index := hindex
    cases hplace : place? body l with
    | none =>
      rw [hplace] at hindex
      cases hindex
    | some k' =>
      rw [hplace] at hindex
      obtain rfl := Control.before.inj hindex
      exact Nat.le_of_lt (List.findIdx?_eq_some_iff_getElem.mp hplace).1

/-- A body stops past its last statement only. -/
theorem length_le_of_stop {index : Nat} {w : World V M}
    (h : ∀ c, ¬ Step host body ⟨.before index, w⟩ c) : body.length ≤ index := by
  refine Nat.le_of_not_lt fun hlt => ?_
  have hnone : step? host body ⟨.before index, w⟩ = none := Option.eq_none_iff_forall_ne_some.mpr h
  rw [step?, List.getElem?_eq_getElem hlt] at hnone
  cases hnone

end Body

end TreeBackend
