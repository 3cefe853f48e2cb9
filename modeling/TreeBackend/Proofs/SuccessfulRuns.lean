import Mathlib.Data.List.Forall2
import TreeBackend.Session.Basic

/-!
# Computations that succeed

Stages thread a state and may fail. `Yields x s a s'` says that the
computation `x`, started in the state `s`, succeeds with the result `a` and
leaves the state `s'`; a computation built from others yields what they yield,
one after the other. `FailsWith x s e` says that it fails with the error `e`,
which is the error of the first of its parts that fails.
-/

namespace TreeBackend

open List

/-- The computation succeeds, with a result and a state. -/
def Yields {ε σ α : Type} (x : ExceptT ε (StateM σ) α) (s : σ) (a : α) (s' : σ) : Prop :=
  x.run.run s = (.ok a, s')

variable {ε σ α β : Type} {s s' : σ}

@[simp] theorem yields_pure {a b : α} :
    Yields (pure a : ExceptT ε (StateM σ) α) s b s' ↔ a = b ∧ s = s' := by
  constructor
  · intro h
    cases h
    exact ⟨rfl, rfl⟩
  · rintro ⟨rfl, rfl⟩
    rfl

@[simp] theorem yields_bind {x : ExceptT ε (StateM σ) α} {f : α → ExceptT ε (StateM σ) β} {b : β} :
    Yields (x >>= f) s b s' ↔ ∃ a u, Yields x s a u ∧ Yields (f a) u b s' := by
  unfold Yields
  rw [ExceptT.run_bind, StateT.run_bind]
  constructor
  · intro h
    cases hx : x.run.run s with
    | mk r u =>
      rw [hx] at h
      cases r with
      | ok a => exact ⟨a, u, rfl, h⟩
      | error e => cases h
  · rintro ⟨a, u, hx, hf⟩
    rw [hx]
    exact hf

@[simp] theorem yields_lift {x : StateM σ α} {a : α} :
    Yields (liftM x : ExceptT ε (StateM σ) α) s a s' ↔ x.run s = (a, s') := by
  constructor
  · intro h
    cases hx : x.run s with
    | mk b u =>
      have h' : ((.ok b, u) : Except ε α × σ) = (.ok a, s') := by
        rw [← h]
        show _ = (x.run s).map Except.ok id
        rw [hx]
        rfl
      cases h'
      rfl
  · intro h
    show (x.run s).map Except.ok id = _
    rw [h]
    rfl

@[simp] theorem yields_liftExcept {x : Except ε α} {a : α} :
    Yields (liftM x : ExceptT ε (StateM σ) α) s a s' ↔ x = .ok a ∧ s = s' := by
  cases x with
  | error e =>
    constructor
    · intro h
      cases h
    · rintro ⟨h, -⟩
      cases h
  | ok b =>
    constructor
    · intro h
      cases h
      exact ⟨rfl, rfl⟩
    · rintro ⟨h, rfl⟩
      cases h
      rfl

variable {e : ε}

@[simp] theorem not_yields_throw {a : α} :
    ¬ Yields (throw e : ExceptT ε (StateM σ) α) s a s' := fun h => by cases h

/-- A computation that is seen to succeed yields something. -/
theorem exists_yields_of_isOk {x : ExceptT ε (StateM σ) α} (h : (x.run.run s).1.isOk = true) :
    ∃ a s', Yields x s a s' := by
  cases hrun : x.run.run s with
  | mk r s' =>
    rw [hrun] at h
    cases r with
    | error e => cases h
    | ok a => exact ⟨a, s', hrun⟩

/-- A computation whose result is seen to pass a check yields something that does. -/
theorem exists_yields_of_any {x : ExceptT ε (StateM σ) α} {p : α → Bool}
    (h : (x.run.run s).1.toOption.any p = true) : ∃ a s', Yields x s a s' ∧ p a = true := by
  cases hrun : x.run.run s with
  | mk r s' =>
    rw [hrun] at h
    cases r with
    | error e => cases h
    | ok a => exact ⟨a, s', hrun, h⟩

theorem yields_mapM_cons {f : α → ExceptT ε (StateM σ) β} {x : α} {xs : List α} {ys : List β} :
    Yields ((x :: xs).mapM f) s ys s' ↔ ∃ y u ys', Yields (f x) s y u ∧
      Yields (xs.mapM f) u ys' s' ∧ y :: ys' = ys := by
  simp only [mapM_cons, yields_bind, yields_pure]
  grind

/-- Computations one after the other succeed if each of them does, wherever it starts. -/
theorem exists_yields_mapM {f : α → ExceptT ε (StateM σ) β} {xs : List α}
    (h : ∀ x ∈ xs, ∀ s, ∃ y s', Yields (f x) s y s') (s : σ) :
    ∃ ys s', Yields (xs.mapM f) s ys s' := by
  induction xs generalizing s with
  | nil => exact ⟨[], s, rfl⟩
  | cons x xs ih =>
    rw [forall_mem_cons] at h
    obtain ⟨y, u, hy⟩ := h.1 s
    obtain ⟨ys, s', hys⟩ := ih h.2 u
    exact ⟨y :: ys, s', yields_mapM_cons.mpr ⟨y, u, ys, hy, hys, rfl⟩⟩

/-- Computations one after the other: each of them starts in a state that follows the
first one and is followed by the last one. -/
theorem Yields.forall₂_of_mapM {R : σ → σ → Prop} (refl : ∀ a, R a a)
    (trans : ∀ {a b c}, R a b → R b c → R a c) {f : α → ExceptT ε (StateM σ) β}
    (step : ∀ {x a y b}, Yields (f x) a y b → R a b) {xs : List α} {ys : List β}
    (h : Yields (xs.mapM f) s ys s') : R s s' ∧
      List.Forall₂ (fun x y => ∃ a b, R s a ∧ Yields (f x) a y b ∧ R b s') xs ys := by
  induction xs generalizing s ys with
  | nil =>
    obtain ⟨rfl, rfl⟩ := yields_pure.mp h
    exact ⟨refl s, .nil⟩
  | cons x xs ih =>
    obtain ⟨y, u, ys', hy, hys, rfl⟩ := yields_mapM_cons.mp h
    obtain ⟨hrest, hall⟩ := ih hys
    refine ⟨trans (step hy) hrest, .cons ⟨s, u, refl s, hy, hrest⟩ (hall.imp ?_)⟩
    rintro x y ⟨a, b, ha, hxy, hb⟩
    exact ⟨a, b, trans (step hy) ha, hxy, hb⟩

/-- So each result comes from one of them. -/
theorem Yields.of_mapM {R : σ → σ → Prop} (refl : ∀ a, R a a)
    (trans : ∀ {a b c}, R a b → R b c → R a c) {f : α → ExceptT ε (StateM σ) β}
    (step : ∀ {x a y b}, Yields (f x) a y b → R a b) {xs : List α} {ys : List β}
    (h : Yields (xs.mapM f) s ys s') : R s s' ∧
      ∀ y ∈ ys, ∃ x ∈ xs, ∃ a b, R s a ∧ Yields (f x) a y b ∧ R b s' := by
  obtain ⟨hrest, hall⟩ := forall₂_of_mapM refl trans step h
  refine ⟨hrest, fun y hy => ?_⟩
  clear h
  induction hall with
  | nil => cases hy
  | @cons x _ _ _ hxy _ ih =>
    obtain rfl | hy := mem_cons.mp hy
    · exact ⟨x, mem_cons_self, hxy⟩
    · obtain ⟨x', hx', h⟩ := ih hy
      exact ⟨x', mem_cons_of_mem x hx', h⟩

/-- A computation without a state succeeds if both of its parts do. -/
theorem bind_eq_ok_iff {x : Except ε α} {f : α → Except ε β} {b : β} :
    (x >>= f) = .ok b ↔ ∃ a, x = .ok a ∧ f a = .ok b := by
  cases x with
  | error e =>
    constructor
    · intro h
      cases h
    · rintro ⟨a, h, -⟩
      cases h
  | ok a =>
    constructor
    · exact fun h => ⟨a, rfl, h⟩
    · rintro ⟨_, ⟨⟩, h⟩
      exact h

/-! ## Computations that fail -/

/-- The computation fails, with an error. -/
def FailsWith {ε σ α : Type} (x : ExceptT ε (StateM σ) α) (s : σ) (e : ε) : Prop :=
  (x.run.run s).1 = .error e

instance [DecidableEq ε] (x : ExceptT ε (StateM σ) α) (s : σ) (e : ε) :
    Decidable (FailsWith x s e) :=
  match h : (x.run.run s).1 with
  | .ok _ => isFalse fun hfails => by cases h.symm.trans hfails
  | .error e' =>
    decidable_of_iff (e' = e)
      ⟨fun heq => heq ▸ h, fun hfails => Except.error.inj (h.symm.trans hfails)⟩

/-- A computation succeeds or fails. -/
theorem yields_or_failsWith (x : ExceptT ε (StateM σ) α) (s : σ) :
    (∃ a s', Yields x s a s') ∨ ∃ e, FailsWith x s e := by
  cases hrun : x.run.run s with
  | mk r s' =>
    cases r with
    | ok a => exact .inl ⟨a, s', hrun⟩
    | error e => exact .inr ⟨e, congrArg Prod.fst hrun⟩

theorem Yields.not_failsWith {x : ExceptT ε (StateM σ) α} {a : α} (h : Yields x s a s') :
    ¬ FailsWith x s e := by
  intro hfails
  rw [FailsWith, h] at hfails
  cases hfails

/-- There is one error. -/
theorem FailsWith.unique {x : ExceptT ε (StateM σ) α} {e' : ε} (h : FailsWith x s e)
    (h' : FailsWith x s e') : e = e' :=
  Except.error.inj (h.symm.trans h')

/-- There is one result. -/
theorem Yields.unique {x : ExceptT ε (StateM σ) α} {a b : α} {u : σ} (h : Yields x s a s')
    (h' : Yields x s b u) : a = b ∧ s' = u := by
  have heq : ((.ok a, s') : Except ε α × σ) = (.ok b, u) := h.symm.trans h'
  cases heq
  exact ⟨rfl, rfl⟩

@[simp] theorem not_failsWith_pure {a : α} :
    ¬ FailsWith (pure a : ExceptT ε (StateM σ) α) s e := fun h => by cases h

@[simp] theorem failsWith_throw {e' : ε} :
    FailsWith (throw e : ExceptT ε (StateM σ) α) s e' ↔ e = e' :=
  Except.error.injEq .. ▸ Iff.rfl

@[simp] theorem failsWith_bind {x : ExceptT ε (StateM σ) α} {f : α → ExceptT ε (StateM σ) β} :
    FailsWith (x >>= f) s e ↔ FailsWith x s e ∨ ∃ a u, Yields x s a u ∧ FailsWith (f a) u e := by
  unfold FailsWith Yields
  rw [ExceptT.run_bind, StateT.run_bind]
  cases hx : x.run.run s with
  | mk r u =>
    cases r with
    | ok a =>
      refine ⟨fun h => .inr ⟨a, u, rfl, h⟩, ?_⟩
      rintro (h | ⟨a', u', heq, h⟩)
      · cases h
      · cases heq
        exact h
    | error e' =>
      refine ⟨fun h => .inl (congrArg Except.error (Except.error.inj h)), ?_⟩
      rintro (h | ⟨a', u', heq, h⟩)
      · exact congrArg Except.error (Except.error.inj h)
      · cases heq

/-- After a part that succeeds, the rest decides about success and failure. -/
theorem Yields.bind_iff {x : ExceptT ε (StateM σ) α} {f : α → ExceptT ε (StateM σ) β} {a : α}
    {b : β} {u : σ} (h : Yields x s a s') : Yields (x >>= f) s b u ↔ Yields (f a) s' b u := by
  rw [yields_bind]
  constructor
  · rintro ⟨a', u', hx, hf⟩
    obtain ⟨rfl, rfl⟩ := h.unique hx
    exact hf
  · exact fun hf => ⟨a, s', h, hf⟩

theorem Yields.failsWith_bind_iff {x : ExceptT ε (StateM σ) α} {f : α → ExceptT ε (StateM σ) β}
    {a : α} (h : Yields x s a s') : FailsWith (x >>= f) s e ↔ FailsWith (f a) s' e := by
  rw [failsWith_bind]
  constructor
  · rintro (hx | ⟨a', u, hx, hf⟩)
    · exact absurd hx h.not_failsWith
    · obtain ⟨rfl, rfl⟩ := h.unique hx
      exact hf
  · exact fun hf => .inr ⟨a, s', h, hf⟩

@[simp] theorem not_failsWith_lift {x : StateM σ α} :
    ¬ FailsWith (liftM x : ExceptT ε (StateM σ) α) s e :=
  (yields_lift.mpr (Prod.eta (x.run s)).symm).not_failsWith

@[simp] theorem failsWith_liftExcept {x : Except ε α} :
    FailsWith (liftM x : ExceptT ε (StateM σ) α) s e ↔ x = .error e := by
  cases x with
  | error e' => exact Iff.rfl
  | ok a =>
    constructor
    · intro h
      cases h
    · intro h
      cases h

/-! ## Computations that cannot fail -/

theorem Session.yields_count (add : Stats → Stats) (s : Session) :
    Yields (liftM (Session.count add) : CompileM Unit) s () { s with stats := add s.stats } :=
  rfl

theorem run_pure_eq_iff {a b : α} : (pure a : StateM σ α).run s = (b, s') ↔ a = b ∧ s = s' := by
  exact Prod.mk.injEq .. ▸ Iff.rfl

theorem run_bind_eq_iff {x : StateM σ α} {f : α → StateM σ β} {b : β} :
    (x >>= f).run s = (b, s') ↔ ∃ a u, x.run s = (a, u) ∧ (f a).run u = (b, s') := by
  rw [StateT.run_bind]
  constructor
  · exact fun h => ⟨_, _, rfl, h⟩
  · rintro ⟨a, u, hx, hf⟩
    rw [hx]
    exact hf

end TreeBackend
