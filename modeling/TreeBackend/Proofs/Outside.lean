import TreeBackend.Proofs.TreeSemantics

/-!
# What lies outside of the temps

A world is the content of the temps, and what lies **outside** of them: the
memory and the calls made so far. What an expression of a program does is an
**action** on the outside: it reads and changes it and comes to a value, or it is
stuck, because a word stands for no truth value or a name for nothing. The
content of the temps is fixed while an expression is evaluated.
-/

namespace TreeBackend

open Option

/-- The memory, and the calls made so far. -/
structure Outside (V M : Type) where
  memory : M
  calls : List (V × List V)

/-- An **action**: it comes to a value and changes the outside, or is stuck. -/
abbrev Action (V M α : Type) := StateT (Outside V M) Option α

/-- The action comes to the value `a`, and leaves the outside `o'`. -/
def Gives {V M α : Type} (m : Action V M α) (o : Outside V M) (a : α) (o' : Outside V M) : Prop :=
  m.run o = some (a, o')

section Gives

variable {V M α β : Type} {o o' : Outside V M}

@[simp] theorem gives_pure {a b : α} : Gives (pure a : Action V M α) o b o' ↔ a = b ∧ o = o' := by
  show some (a, o) = some (b, o') ↔ _
  rw [some_inj, Prod.mk.injEq]

@[simp] theorem gives_bind {m : Action V M α} {f : α → Action V M β} {b : β} :
    Gives (m >>= f) o b o' ↔ ∃ a o₁, Gives m o a o₁ ∧ Gives (f a) o₁ b o' := by
  unfold Gives
  rw [StateT.run_bind]
  show (m.run o).bind _ = _ ↔ _
  rw [bind_eq_some_iff, Prod.exists]

@[simp] theorem gives_lift {x : Option α} {a : α} :
    Gives (liftM x : Action V M α) o a o' ↔ x = some a ∧ o = o' := by
  cases x with
  | none =>
    constructor
    · intro h
      cases h
    · rintro ⟨h, -⟩
      cases h
  | some b => exact gives_pure.trans (and_congr_left' some_inj.symm)

end Gives

namespace Action

/-- One value, then more of them. -/
def cons {V M α : Type} (m : Action V M α) (ms : Action V M (List α)) : Action V M (List α) := do
  let a ← m
  let as ← ms
  return a :: as

variable {V M : Type} (host : Host V M)

/-- Read a word. -/
def load (address : V) : Action V M V := fun o => some (host.load o.memory address, o)

/-- Write a word. -/
def store (address v : V) : Action V M Unit := fun o =>
  some ((), { o with memory := host.store o.memory address v })

/-- Make a call. -/
def call (f : V) (args : List V) : Action V M V := fun o =>
  let answer := host.answer o.calls o.memory f args
  some (answer.1, ⟨answer.2, o.calls ++ [(f, args)]⟩)

end Action

theorem gives_cons {V M α : Type} {m : Action V M α} {ms : Action V M (List α)} {as : List α}
    {o o' : Outside V M} : Gives (m.cons ms) o as o' ↔
      ∃ a as' o₁, Gives m o a o₁ ∧ Gives ms o₁ as' o' ∧ a :: as' = as := by
  simp only [Action.cons, gives_bind, gives_pure]
  grind

namespace World

variable {V M : Type}

/-- What lies outside of the temps. -/
def outside (w : World V M) : Outside V M := ⟨w.memory, w.calls⟩

/-- The same temps, with another outside. -/
def withOutside (w : World V M) (o : Outside V M) : World V M := ⟨w.temps, o.memory, o.calls⟩

@[simp] theorem outside_set (w : World V M) (t : Temp) (v : V) :
    (w.set t v).outside = w.outside := rfl

/-- In this world, the action comes to a value and to another world. -/
def Gives {α : Type} (w : World V M) (m : Action V M α) (a : α) (w' : World V M) : Prop :=
  ∃ o, TreeBackend.Gives m w.outside a o ∧ w' = w.withOutside o

variable {host : Host V M} {u : World V M} {o' : Outside V M}

/-- A read finds the same word from a world as from its outside. -/
theorem gives_load {address v : V} : TreeBackend.Gives (Action.load host address) u.outside v o' ↔
      host.load u.memory address = v ∧ u.outside = o' := by
  show some (_, _) = some (v, o') ↔ _
  rw [some_inj, Prod.mk.injEq]
  rfl

theorem gives_store {address v : V} {a : Unit} :
    TreeBackend.Gives (Action.store host address v) u.outside a o' ↔
      (u.store host address v).outside = o' := by
  show some ((), _) = some (a, o') ↔ _
  rw [some_inj, Prod.mk.injEq, and_iff_right rfl]
  rfl

theorem gives_call {f v : V} {args : List V} :
    TreeBackend.Gives (Action.call host f args) u.outside v o' ↔
      (u.call host f args).1 = v ∧ (u.call host f args).2.outside = o' := by
  show some (_, _) = some (v, o') ↔ _
  rw [some_inj, Prod.mk.injEq]
  rfl

/-- Worlds that agree have the same outside. -/
theorem Agree.outside {on : Temp → Prop} {w u : World V M} (h : Agree on w u) :
    u.outside = w.outside := by
  unfold World.outside
  rw [h.memory, h.calls]

theorem Agree.of_outside {on : Temp → Prop} {w u : World V M}
    (htemps : ∀ t, on t → u.temps t = w.temps t) (h : u.outside = w.outside) : Agree on w u :=
  ⟨htemps, congrArg Outside.memory h, congrArg Outside.calls h⟩

end World

end TreeBackend
