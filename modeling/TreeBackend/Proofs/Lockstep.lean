import TreeBackend.Proofs.SessionGrowth
import TreeBackend.Proofs.TempRenaming

/-!
# Computations in lockstep

Two computations that start in related states run in **lockstep** when they end alike:
either both succeed, with related results and in states that are related again, or both
fail. Computations built in the same way from parts in lockstep are in lockstep, so
the statement is carried through a stage along its text.

The states here are two sessions of which one **mirrors** the other: they share the
configuration, and the temps that they are going to draw correspond under a renaming.
Which labels they know, beside some that are given, and what they have counted makes
no difference.
-/

namespace TreeBackend

/-- Computations that cannot fail, from related states to related results and states. -/
def InStep {σ τ α β : Type} (S : σ → τ → Prop) (R : α → β → Prop) (x : StateM σ α)
    (y : StateM τ β) : Prop :=
  ∀ s t, S s t → R (x.run s).1 (y.run t).1 ∧ S (x.run s).2 (y.run t).2

/-- Computations that both **succeed**, with related results and states, or both fail. -/
def Lockstep {ε σ τ α β : Type} (S : σ → τ → Prop) (R : α → β → Prop)
    (x : ExceptT ε (StateM σ) α) (y : ExceptT ε (StateM τ) β) : Prop :=
  ∀ s t, S s t → (∃ a s' b t', Yields x s a s' ∧ Yields y t b t' ∧ R a b ∧ S s' t') ∨
    ∃ e e', FailsWith x s e ∧ FailsWith y t e'

variable {ε σ τ α β γ δ : Type} {S : σ → τ → Prop} {R : α → β → Prop} {Q : γ → δ → Prop}

namespace InStep

variable {x : StateM σ α} {y : StateM τ β}

protected theorem pure {a : α} {b : β} (h : R a b) :
    InStep S R (pure a : StateM σ α) (pure b : StateM τ β) := fun _ _ hst => ⟨h, hst⟩

protected theorem bind {f : α → StateM σ γ} {g : β → StateM τ δ} (hx : InStep S R x y)
    (hf : ∀ a b, R a b → InStep S Q (f a) (g b)) : InStep S Q (x >>= f) (y >>= g) := by
  intro s t hst
  obtain ⟨hab, hst'⟩ := hx s t hst
  exact hf _ _ hab _ _ hst'

/-- Where the second result is the image of the first. -/
theorem bind_eq {m : α → β} {f : α → StateM σ γ} {g : β → StateM τ δ}
    (hx : InStep S (fun a b => b = m a) x y) (hf : ∀ a, InStep S Q (f a) (g (m a))) :
    InStep S Q (x >>= f) (y >>= g) :=
  hx.bind fun a _ hab => hab ▸ hf a

end InStep

namespace Lockstep

variable {x : ExceptT ε (StateM σ) α} {y : ExceptT ε (StateM τ) β}

protected theorem pure {a : α} {b : β} (h : R a b) :
    Lockstep S R (pure a : ExceptT ε (StateM σ) α) (pure b : ExceptT ε (StateM τ) β) :=
  fun s t hst => .inl ⟨a, s, b, t, yields_pure.mpr ⟨rfl, rfl⟩, yields_pure.mpr ⟨rfl, rfl⟩, h, hst⟩

protected theorem throw (e e' : ε) :
    Lockstep S R (throw e : ExceptT ε (StateM σ) α) (throw e' : ExceptT ε (StateM τ) β) :=
  fun _ _ _ => .inr ⟨e, e', failsWith_throw.mpr rfl, failsWith_throw.mpr rfl⟩

protected theorem bind {f : α → ExceptT ε (StateM σ) γ} {g : β → ExceptT ε (StateM τ) δ}
    (hx : Lockstep S R x y) (hf : ∀ a b, R a b → Lockstep S Q (f a) (g b)) :
    Lockstep S Q (x >>= f) (y >>= g) := by
  intro s t hst
  obtain ⟨a, s', b, t', ha, hb, hab, hst'⟩ | ⟨e, e', he, he'⟩ := hx s t hst
  · obtain ⟨c, s'', d, t'', hc, hd, h⟩ | ⟨e, e', he, he'⟩ := hf a b hab s' t' hst'
    · exact .inl ⟨c, s'', d, t'', ha.bind_iff.mpr hc, hb.bind_iff.mpr hd, h⟩
    · exact .inr ⟨e, e', ha.failsWith_bind_iff.mpr he, hb.failsWith_bind_iff.mpr he'⟩
  · exact .inr ⟨e, e', failsWith_bind.mpr (.inl he), failsWith_bind.mpr (.inl he')⟩

theorem bind_eq {m : α → β} {f : α → ExceptT ε (StateM σ) γ} {g : β → ExceptT ε (StateM τ) δ}
    (hx : Lockstep S (fun a b => b = m a) x y) (hf : ∀ a, Lockstep S Q (f a) (g (m a))) :
    Lockstep S Q (x >>= f) (y >>= g) :=
  hx.bind fun a _ hab => hab ▸ hf a

protected theorem map {f : α → γ} {g : β → δ} (hx : Lockstep S R x y)
    (h : ∀ a b, R a b → Q (f a) (g b)) :
    Lockstep S Q (x >>= fun a => pure (f a)) (y >>= fun b => pure (g b)) :=
  hx.bind fun a b hab => .pure (h a b hab)

theorem lift {x : StateM σ α} {y : StateM τ β} (h : InStep S R x y) :
    Lockstep S R (liftM x : ExceptT ε (StateM σ) α) (liftM y : ExceptT ε (StateM τ) β) := by
  intro s t hst
  obtain ⟨hab, hst'⟩ := h s t hst
  exact .inl ⟨_, _, _, _, yields_lift.mpr rfl, yields_lift.mpr rfl, hab, hst'⟩

/-- Computations without a state, of which one is the image of the other. -/
theorem liftExcept {x : Except ε α} {y : Except ε β} (f : α → β) (h : y = x.map f) :
    Lockstep S (fun a b => b = f a) (liftM x : ExceptT ε (StateM σ) α)
      (liftM y : ExceptT ε (StateM τ) β) := by
  subst h
  cases x with
  | error e => exact .throw e e
  | ok a => exact .pure rfl

protected theorem get :
    Lockstep S S (get : ExceptT ε (StateM σ) σ) (get : ExceptT ε (StateM τ) τ) :=
  fun s t hst => .inl ⟨s, s, t, t, rfl, rfl, hst, hst⟩

theorem modify {f : σ → σ} {g : τ → τ} (h : ∀ s t, S s t → S (f s) (g t)) :
    Lockstep S (fun _ _ => True) (modify f : ExceptT ε (StateM σ) PUnit)
      (modify g : ExceptT ε (StateM τ) PUnit) :=
  fun s t hst => .inl ⟨⟨⟩, f s, ⟨⟩, g t, rfl, rfl, trivial, h s t hst⟩

/-- What is related is a result of the first computation. -/
theorem and_yields (h : Lockstep S R x y) :
    Lockstep S (fun a b => R a b ∧ ∃ s s', Yields x s a s') x y := by
  intro s t hst
  obtain ⟨a, s', b, t', ha, hb, hab, hst'⟩ | hfails := h s t hst
  · exact .inl ⟨a, s', b, t', ha, hb, ⟨hab, s, s', ha⟩, hst'⟩
  · exact .inr hfails

/-- What the first computation yields, the second one follows. -/
theorem exists_yields (h : Lockstep S R x y) {s s' : σ} {t : τ} {a : α} (hst : S s t)
    (hx : Yields x s a s') : ∃ b t', Yields y t b t' ∧ R a b ∧ S s' t' := by
  obtain ⟨a', s'', b, t', ha, hb, hab, hst'⟩ | ⟨e, e', he, -⟩ := h s t hst
  · obtain ⟨rfl, rfl⟩ := ha.unique hx
    exact ⟨b, t', hb, hab, hst'⟩
  · exact absurd he hx.not_failsWith

/-- And the other way round. -/
theorem exists_yields_left (h : Lockstep S R x y) {s : σ} {t t' : τ} {b : β} (hst : S s t)
    (hy : Yields y t b t') : ∃ a s', Yields x s a s' ∧ R a b ∧ S s' t' := by
  obtain ⟨a, s', b', t'', ha, hb, hab, hst'⟩ | ⟨e, e', -, he'⟩ := h s t hst
  · obtain ⟨rfl, rfl⟩ := hb.unique hy
    exact ⟨a, s', ha, hab, hst'⟩
  · exact absurd he' hy.not_failsWith

end Lockstep

namespace Session

/-- The second session **mirrors** the first: it has its configuration, which is valid,
and what the first one draws next, renamed, is what the second one draws next. Both know
some labels. -/
structure Mirrors (ρ : Temp.Renaming) (known : List Label) (s t : Session) : Prop where
  valid : s.config.Valid
  config : t.config = s.config
  draws : ∀ n kind, ρ ⟨s.tempCount + n, kind⟩ = ⟨t.tempCount + n, kind⟩
  knows : ∀ l ∈ known, l ∈ s.labels ∧ l ∈ t.labels

variable {ρ : Temp.Renaming} {known : List Label}

/-- A session that has drawn temps mirrors one that has not, with the numbers shifted. -/
theorem mirrors_of_le {config : Config} (hvalid : config.Valid) {t : Session}
    (hconfig : t.config = config) (hle : 7 ≤ t.tempCount) :
    Mirrors (.shift (t.tempCount - 7)) [] (new config) t where
  valid := hvalid
  config := hconfig
  draws n kind := by
    have hnot : ¬ 7 + n < 7 := by omega
    refine (if_neg hnot).trans (congrArg (Temp.mk · kind) ?_)
    show 7 + n + (t.tempCount - 7) = t.tempCount + n
    omega
  knows := nofun

theorem inStep_drawTemp (kind : Temp.Kind) :
    InStep (Mirrors ρ known) (fun a b => b = ρ a) (drawTemp kind) (drawTemp kind) := by
  refine fun s t h => ⟨(h.draws 0 kind).symm, h.valid, h.config, fun n kind => ?_, h.knows⟩
  have hnext := h.draws (1 + n) kind
  rwa [← Nat.add_assoc, ← Nat.add_assoc] at hnext

/-- Sessions that both get to know more labels. -/
theorem Mirrors.grow {s s' t t' : Session} (h : s.Mirrors ρ known t) (hs : s.Continues s')
    (ht : t.Continues t') (hscount : s'.tempCount = s.tempCount)
    (htcount : t'.tempCount = t.tempCount) : s'.Mirrors ρ known t' where
  valid := hs.config ▸ h.valid
  config := ht.config.trans (h.config.trans hs.config.symm)
  draws n kind := by rw [hscount, htcount, h.draws]
  knows l hl := ⟨hs.labels l (h.knows l hl).1, ht.labels l (h.knows l hl).2⟩

theorem inStep_namedLabel (name : String) :
    InStep (Mirrors ρ known) (fun a b => b = a) (namedLabel name) (namedLabel name) := by
  have hrun (s : Session) : ((namedLabel name).run s).1 = ⟨name⟩ ∧
      ((namedLabel name).run s).2.tempCount = s.tempCount := by
    rw [run_namedLabel]
    split <;> exact ⟨rfl, rfl⟩
  exact fun s t h => ⟨(hrun t).1.trans (hrun s).1.symm,
    h.grow (Extending.namedLabel name s) (Extending.namedLabel name t) (hrun s).2 (hrun t).2⟩

theorem inStep_count (add add' : Stats → Stats) :
    InStep (Mirrors ρ known) (fun _ _ => True) (count add) (count add') :=
  fun _ _ h => ⟨trivial, h.valid, h.config, h.draws, h.knows⟩

end Session

end TreeBackend
