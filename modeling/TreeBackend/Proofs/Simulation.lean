import Mathlib.Logic.Relation

/-!
# Simulations

Two systems that take one step after the other, and a relation between their
states. In a **simulation**, each step of the first system is matched by steps
of the second. It may be matched by none at all, but then a rank goes down, so
that the first system cannot go on for ever while the second stands still.

A state of the second system has at most one next state. A simulation therefore
works in both directions: what the second system does is never more than what
it takes to match the first (`Simulation.backward`), and it ends only if the
first one does (`Simulation.ends`). All of this together is what it means that
the two systems **run alike** (`RunAlike`).
-/

namespace TreeBackend

open Relation

variable {α β : Type}

/-- Whoever goes on goes on the same way. -/
theorem steps_of_unique {r : α → α → Prop} {a b c : α} (h : ReflTransGen r a c) (hne : a ≠ c)
    (hunique : ∀ {b'}, r a b' → b' = b) : ReflTransGen r b c := by
  obtain rfl | ⟨b', hb', h⟩ := ReflTransGen.cases_head h
  · exact absurd rfl hne
  · exact hunique hb' ▸ h

/-- Nothing is reached from where no step is left. -/
theorem eq_of_steps {r : α → α → Prop} {a b : α} (h : ReflTransGen r a b)
    (hstop : ∀ a', ¬ r a a') : b = a := by
  obtain rfl | ⟨a', ha', _⟩ := ReflTransGen.cases_head h
  · rfl
  · exact absurd ha' (hstop a')

/-- The second system **simulates** the first. -/
structure Simulation (r : α → α → Prop) (r' : β → β → Prop) (R : α → β → Prop)
    (rank : α → Nat) : Prop where
  unique : ∀ {b b₁ b₂}, r' b b₁ → r' b b₂ → b₁ = b₂
  stop : ∀ {a b}, R a b → (∀ a', ¬ r a a') → ∀ b', ¬ r' b b'
  step : ∀ {a b a'}, R a b → r a a' → (∃ b', TransGen r' b b' ∧ R a' b') ∨ R a' b ∧ rank a' < rank a

namespace Simulation

variable {r : α → α → Prop} {r' : β → β → Prop} {R : α → β → Prop} {rank : α → Nat}
  {a a' : α} {b b' : β}

/-- What the first system does, the second does. -/
theorem forward (sim : Simulation r r' R rank) (hR : R a b) (h : ReflTransGen r a a') :
    ∃ b', ReflTransGen r' b b' ∧ R a' b' := by
  induction h with
  | refl => exact ⟨b, .refl, hR⟩
  | tail _ hstep ih =>
    obtain ⟨b', hb', hR'⟩ := ih
    obtain ⟨b₂, hb₂, hR₂⟩ | ⟨hR₂, _⟩ := sim.step hR' hstep
    · exact ⟨b₂, hb'.trans hb₂.to_reflTransGen, hR₂⟩
    · exact ⟨b', hb', hR₂⟩

/-- A step of the second system is part of a match. -/
theorem backward_step (sim : Simulation r r' R rank) (hR : R a b) (h : r' b b') :
    ∃ a' b'', ReflTransGen r a a' ∧ ReflTransGen r' b' b'' ∧ R a' b'' := by
  -- the first system goes on until the second has to move
  induction hrank : rank a using Nat.strongRecOn generalizing a with
  | ind n ih =>
    by_cases hstop : ∀ a', ¬ r a a'
    · exact absurd h (sim.stop hR hstop b')
    · obtain ⟨a', ha⟩ := Classical.not_forall_not.mp hstop
      obtain ⟨b₂, hmatch, hR₂⟩ | ⟨hR', hlt⟩ := sim.step hR ha
      · obtain ⟨b₁, hb₁, hb₂⟩ := TransGen.head'_iff.mp hmatch
        obtain rfl := sim.unique hb₁ h
        exact ⟨a', b₂, .single ha, hb₂, hR₂⟩
      · obtain ⟨a'', b'', ha', hb', hR''⟩ := ih (rank a') (hrank ▸ hlt) hR' rfl
        exact ⟨a'', b'', .head ha ha', hb', hR''⟩

/-- What the second system does is on the way to a match of what the first
does. -/
theorem backward (sim : Simulation r r' R rank) (hR : R a b) (h : ReflTransGen r' b b') :
    ∃ a' b'', ReflTransGen r a a' ∧ ReflTransGen r' b' b'' ∧ R a' b'' := by
  induction h with
  | refl => exact ⟨a, b, .refl, .refl, hR⟩
  | @tail b₁ b₂ _ hstep ih =>
    obtain ⟨a', b'', ha', hb'', hR'⟩ := ih
    by_cases heq : b₁ = b''
    · obtain ⟨a'', b₃, ha'', hb₃, hR''⟩ := sim.backward_step (heq ▸ hR') hstep
      exact ⟨a'', b₃, ha'.trans ha'', hb₃, hR''⟩
    · exact ⟨a', b'', ha', steps_of_unique hb'' heq fun h => sim.unique h hstep, hR'⟩

/-- **If the second system ends, the first does**, in a related state. -/
theorem ends (sim : Simulation r r' R rank) (hR : R a b) (h : ReflTransGen r' b b')
    (hstop : ∀ b'', ¬ r' b' b'') :
    ∃ a', ReflTransGen r a a' ∧ (∀ a'', ¬ r a' a'') ∧ R a' b' := by
  obtain ⟨a₁, b₁, ha₁, hb₁, hR₁⟩ := sim.backward hR h
  obtain rfl := eq_of_steps hb₁ hstop
  induction hrank : rank a₁ using Nat.strongRecOn generalizing a₁ with
  | ind n ih =>
    by_cases hstop' : ∀ a', ¬ r a₁ a'
    · exact ⟨a₁, ha₁, hstop', hR₁⟩
    · obtain ⟨a₂, ha₂⟩ := Classical.not_forall_not.mp hstop'
      obtain ⟨_, hmatch, _⟩ | ⟨hR₂, hlt⟩ := sim.step hR₁ ha₂
      · obtain ⟨b₂, hb₂, _⟩ := TransGen.head'_iff.mp hmatch
        exact absurd hb₂ (hstop b₂)
      · exact ih (rank a₂) (hrank ▸ hlt) a₂ (ha₁.tail ha₂) hR₂ rfl

end Simulation

/-- Two systems **run alike** from two states: what the first comes to, the
second comes to, and stops there if the first does; what the second comes to is
on the way to a match; where the second stops, the first does. -/
structure RunAlike (r : α → α → Prop) (r' : β → β → Prop) (R : α → β → Prop) (a : α) (b : β) :
    Prop where
  forward : ∀ a', ReflTransGen r a a' →
    ∃ b', ReflTransGen r' b b' ∧ R a' b' ∧ ((∀ a'', ¬ r a' a'') → ∀ b'', ¬ r' b' b'')
  backward : ∀ b', ReflTransGen r' b b' →
    ∃ a' b'', ReflTransGen r a a' ∧ ReflTransGen r' b' b'' ∧ R a' b''
  ends : ∀ b', ReflTransGen r' b b' → (∀ b'', ¬ r' b' b'') →
    ∃ a', ReflTransGen r a a' ∧ (∀ a'', ¬ r a' a'') ∧ R a' b'

section RunAlike

variable {r : α → α → Prop} {r' : β → β → Prop} {R : α → β → Prop} {rank : α → Nat} {a : α} {b : β}

/-- A system and one that simulates it run alike from states that match. -/
theorem Simulation.runAlike (sim : Simulation r r' R rank) (hR : R a b) : RunAlike r r' R a b where
  forward a' h := by
    obtain ⟨b', hb', hR'⟩ := sim.forward hR h
    exact ⟨b', hb', hR', sim.stop hR'⟩
  backward _ h := sim.backward hR h
  ends _ h hstop := sim.ends hR h hstop

/-- The second system may have come from a state before, if it had no other way
to go. -/
theorem RunAlike.head (h : RunAlike r r' R a b) {b₀ : β} (hb : r' b₀ b)
    (hunique : ∀ {b'}, r' b₀ b' → b' = b) : RunAlike r r' R a b₀ where
  forward a' ha' := by
    obtain ⟨b', hb', hR, hstop⟩ := h.forward a' ha'
    exact ⟨b', .head hb hb', hR, hstop⟩
  backward b' hb' := by
    by_cases heq : b₀ = b'
    · obtain ⟨a', b'', ha', hb'', hR⟩ := h.backward b .refl
      exact ⟨a', b'', ha', heq ▸ .head hb hb'', hR⟩
    · exact h.backward b' (steps_of_unique hb' heq hunique)
  ends b' hb' hstop := by
    refine h.ends b' (steps_of_unique hb' ?_ hunique) hstop
    rintro rfl
    exact hstop b hb

end RunAlike

end TreeBackend
