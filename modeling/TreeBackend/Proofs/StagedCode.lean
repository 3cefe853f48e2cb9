import TreeBackend.Proofs.CanonicalForms
import TreeBackend.Proofs.Outside

/-!
# Code for the parts of a tree

The effects of a staged expression are code, and jumps may go on inside it.
This module says what it means that the parts of an expression **compute** an
action: from every world in which the action comes to a value, the code runs to
its end, and then the value of the parts is that value.

Two things are kept track of on the way. The code writes only temps of its own –
plain temps drawn while the tree was built, and holders drawn while it was
taken apart – so that what is known about other temps stays true. And a value
that commutes is a leaf, so that the effects of later operands do not change it.
-/

namespace TreeBackend

open List World

variable {x : Mark} {k lo : Nat} {t : Temp}

/-! ## Temps drawn so far -/

/-- How many numbers have been drawn: for plain temps, where a tree is built,
and for holders, where it is taken apart. -/
structure Mark where
  plain : Nat
  holder : Nat

/-- The first mark was there before the second. -/
structure Mark.Le (x y : Mark) : Prop where
  plain : x.plain ≤ y.plain
  holder : x.holder ≤ y.holder

theorem Mark.Le.trans {y z : Mark} (h : x.Le y) (h' : y.Le z) : x.Le z :=
  ⟨Nat.le_trans h.plain h'.plain, Nat.le_trans h.holder h'.holder⟩

theorem Mark.Le.refl (x : Mark) : x.Le x := ⟨Nat.le_refl _, Nat.le_refl _⟩

/-- The temp was drawn before the mark, or is a fixed one. -/
def Temp.Under (t : Temp) (x : Mark) : Prop := match t.kind with
  | .plain _ => t.index < x.plain
  | .holder => t.index < x.holder
  | .fixed _ | .framePointer => True

theorem Temp.under_plain {name : String} :
    (⟨k, .plain name⟩ : Temp).Under x ↔ k < x.plain := Iff.rfl

theorem Temp.under_holder : (⟨k, .holder⟩ : Temp).Under x ↔ k < x.holder := Iff.rfl

theorem Temp.Under.mono {y : Mark} (h : t.Under x) (hle : x.Le y) : t.Under y := by
  unfold Under at h ⊢
  cases hkind : t.kind with
  | plain name =>
    rw [hkind] at h
    exact Nat.lt_of_lt_of_le h hle.plain
  | holder =>
    rw [hkind] at h
    exact Nat.lt_of_lt_of_le h hle.holder
  | fixed | framePointer => trivial

section Worlds

variable {V M : Type} {u u₁ u' : World V M} {y z : Mark}

/-- From `u` to `u'`, only temps have changed that were drawn from the one mark
to the other. -/
def World.KeptBetween (x y : Mark) (u u' : World V M) : Prop :=
  ∀ t : Temp, t.Under x ∨ ¬ t.Under y → u'.temps t = u.temps t

theorem World.KeptBetween.refl (x y : Mark) (u : World V M) : KeptBetween x y u u := fun _ _ => rfl

theorem World.KeptBetween.mono {x' y' : Mark} (h : KeptBetween x y u u') (hx : x'.Le x)
    (hy : y.Le y') : KeptBetween x' y' u u' := fun t ht =>
  h t (ht.imp (·.mono hx) fun hnot hunder => hnot (hunder.mono hy))

theorem World.KeptBetween.trans (h : KeptBetween x y u u₁) (h' : KeptBetween x y u₁ u') :
    KeptBetween x y u u' := fun t ht => (h' t ht).trans (h t ht)

theorem World.KeptBetween.set (hx : ¬ t.Under x) (hy : t.Under y) (u : World V M) (v : V) :
    KeptBetween x y u (u.set t v) := by
  intro t' ht'
  refine Function.update_of_ne ?_ _ _
  rintro rfl
  exact ht'.elim hx fun hnot => hnot hy

/-- What is known about temps depends only on those fixed, and on plain ones
with a number below `lo`. -/
def Stable (known : (Temp → V) → Prop) (lo : Nat) : Prop :=
  ∀ f g : Temp → V, (∀ t : Temp, (∀ n, t.Under ⟨lo, n⟩) → g t = f t) → known f → known g

theorem Stable.mono {known : (Temp → V) → Prop} {lo' : Nat} (h : Stable known lo) (hle : lo ≤ lo') :
    Stable known lo' := fun f g hsame =>
  h f g fun t ht => hsame t fun n => (ht n).mono ⟨hle, Nat.le_refl _⟩

/-- What is known stays true while later temps are written. -/
theorem Stable.kept {known : (Temp → V) → Prop} (h : Stable known lo) (hkept : KeptBetween x y u u')
    (hle : lo ≤ x.plain) (hknown : known u.temps) : known u'.temps :=
  h u.temps u'.temps (fun t ht => hkept t (.inl ((ht x.holder).mono ⟨hle, Nat.le_refl _⟩))) hknown

/-- One more temp may be known. -/
theorem Stable.and_eq {known : (Temp → V) → Prop} (h : Stable known lo) (ht : ∀ n, t.Under ⟨lo, n⟩)
    (v : V) : Stable (fun f => known f ∧ f t = v) lo :=
  fun f g hsame hknown => ⟨h f g hsame hknown.1, (hsame t ht).trans hknown.2⟩

end Worlds

/-! ## Parts that compute -/

section Computes

variable {V M : Type} (host : Host V M) (known : (Temp → V) → Prop)

/-- The parts **compute** the action, given what is known about the temps. -/
structure Staged.Computes (x y : Mark) (p : Staged) (m : Action V M V) : Prop where
  settled : p.value.commutes = true → p.value.isLeaf = true ∧ ∀ t, p.value = .temp t → t.Under y
  runs : ∀ {u : World V M} {v : V} {o : Outside V M}, Gives m u.outside v o → known u.temps →
    ∃ u', Body.Ends host p.code u none u' ∧ KeptBetween x y u u' ∧
      (p.value.eval host u').1 = v ∧ (p.value.eval host u').2.outside = o

/-- The parts of operands **compute** the values of the operands, one after the
other: all effects run, and then all values can be taken. -/
def Staged.ComputeAll (x y : Mark) (ps : List Staged) (m : Action V M (List V)) : Prop :=
  ∀ {u : World V M} {vs : List V} {o : Outside V M}, Gives m u.outside vs o → known u.temps →
    ∃ u', Body.Ends host (ps.flatMap Staged.code) u none u' ∧ KeptBetween x y u u' ∧
      ps.map (fun p => (p.value.eval host u').1) = vs ∧ u'.outside = o

/-- The parts of expressions, each computing its own action; nothing is said
about how they get along with one another. -/
inductive Staged.ComputeEach : Mark → Mark → List Staged → Action V M (List V) → Prop where
  | nil (x : Mark) : ComputeEach x x [] (pure [])
  | cons {x y z : Mark} {p : Staged} {ps : List Staged} {m : Action V M V}
      {ms : Action V M (List V)} (le : x.Le y) (head : p.Computes host known x y m)
      (tail : ComputeEach y z ps ms) :
      ComputeEach x z (p :: ps) (m.cons ms)

end Computes

/-- A canonical source leaves the temps alone. -/
theorem Exp.eval_snd_temps {V M : Type} {host : Host V M} {e : Exp}
    (h : e.isCanonicalSource = true) (u : World V M) : (e.eval host u).2.temps = u.temps := by
  by_cases hcall : ∃ f args, e = .call f args
  · obtain ⟨f, args, rfl⟩ := hcall
    rw [isCanonicalSource, Bool.and_eq_true, all_eq_true] at h
    rw [eval, eval_snd_of_isPure h.1, evalAll_of_isPure h.2]
    rfl
  · have hpure := isPure_of_isCanonicalSource h fun f args heq => hcall ⟨f, args, heq⟩
    rw [eval_snd_of_isPure hpure]

namespace Staged

variable {V M : Type} {host : Host V M} {known : (Temp → V) → Prop} {y z : Mark} {p q : Staged}
  {m : Action V M V} {ls : List Label}

theorem code_held (p : Staged) (k : Nat) :
    (p.held k).code = p.code ++ [.move (.temp ⟨k, .holder⟩) p.value] := by
  unfold code held
  rw [flatMap_append]
  rfl

/-- A holder is written after all else. -/
theorem Computes.held_runs (h : p.Computes host known x y m)
    (hsource : p.value.isCanonicalSource = true) (hnodup : (Body.labels p.code).Nodup) (k : Nat)
    {u : World V M} {v : V} {o : Outside V M} (hm : Gives m u.outside v o)
    (hknown : known u.temps) :
    ∃ u₁, Body.Ends host (p.held k).code u none (u₁.set ⟨k, .holder⟩ v) ∧ KeptBetween x y u u₁ ∧
      u₁.outside = o := by
  obtain ⟨u', hends, hkept, hvalue, hworld⟩ := h.runs hm hknown
  refine ⟨(p.value.eval host u').2, ?_, fun t ht => ?_, hworld⟩
  · rw [code_held, ← hvalue]
    refine hends.append (.move (.temp ⟨k, .holder⟩) p.value u') ?_ (by simp)
    rw [Body.labels_append]
    exact (append_nil _).symm ▸ hnodup
  · rw [Exp.eval_snd_temps hsource]
    exact hkept t ht

/-- Parts go on computing if their value is held. -/
theorem Computes.held (h : p.Computes host known x y m) (hsource : p.value.isCanonicalSource = true)
    (hnodup : (Body.labels p.code).Nodup) (hle : x.Le y) (hk : y.holder ≤ k) :
    (p.held k).Computes host known x ⟨y.plain, k + 1⟩ m where
  settled _ := by
    refine ⟨rfl, fun t ht => ?_⟩
    obtain rfl := Exp.temp.inj ht
    exact Nat.lt_succ_self k
  runs hm hknown := by
    obtain ⟨u₁, hends, hkept, hworld⟩ := h.held_runs hsource hnodup k hm hknown
    have hle' : y.Le ⟨y.plain, k + 1⟩ := ⟨Nat.le_refl _, Nat.le_succ_of_le hk⟩
    refine ⟨_, hends, ?_, Function.update_self .., hworld⟩
    refine (hkept.mono (.refl x) hle').trans (.set ?_ ?_ u₁ _)
    · have := hle.holder
      rw [Temp.under_holder]
      omega
    · exact Nat.lt_succ_self k

variable {a b : Session} {ps : List Staged}

/-- Holding a call leaves the parts computing. -/
theorem Computes.holdCall (h : p.Computes host known x ⟨z.plain, a.tempCount⟩ m)
    (hsource : p.value.isCanonicalSource = true) (hnodup : (Body.labels p.code).Nodup)
    (hle : x.Le ⟨z.plain, a.tempCount⟩) (hq : p.holdCall.run a = (q, b)) :
    q.Computes host known x ⟨z.plain, b.tempCount⟩ m := by
  obtain ⟨-, rfl, hcount⟩ | ⟨-, rfl, rfl⟩ := holdCall_cases hq
  · rw [hcount]
    exact h.held hsource hnodup hle (Nat.le_refl _)
  · exact h

/-! ## Operands -/

theorem code_eq_nil_of_hasEffects (h : ps.any hasEffects = false) : ps.flatMap code = [] := by
  rw [flatMap_eq_nil_iff]
  intro p hp
  have heffects := any_eq_false.mp h p hp
  have hnil : p.effects = [] := by simpa [hasEffects] using heffects
  rw [code, hnil, flatMap_nil]

/-- A pure value that is a temp under a mark, or no temp, survives whatever is
done after the mark. -/
theorem eval_of_settled {e : Exp} (hleaf : e.isLeaf = true) (hunder : ∀ t, e = .temp t → t.Under x)
    {u u' : World V M} (hkept : KeptBetween x y u u') :
    (e.eval host u').1 = (e.eval host u).1 := by
  cases e with
  | const | name => rfl
  | temp t => exact hkept t (.inl (hunder t rfl))
  | binop | not | mem | call | eseq => cases hleaf

/-- **One more operand in front.** It is protected from the others, so that
its value is still there when all of them have run. -/
theorem ComputeAll.cons {ms : Action V M (List V)} {ls' : List Label}
    (hp : p.Computes host known x y m) (hready : p.Ready ls) (hps : ComputeAll host known y z ps ms)
    (hreadys : AllReady ps ls') (hxy : x.Le y) (hyz : y.Le z) (hz : z.holder = a.tempCount)
    (hstable : Stable known x.plain) (hnodup : (ls ++ ls').Nodup)
    (hq : (p.protect (ps.any hasEffects)).run a = (q, b)) :
    ComputeAll host known x ⟨z.plain, b.tempCount⟩ (q :: ps) (m.cons ms) := by
  intro u vs o hgives hknown
  obtain ⟨v, vs, o₁, hm, hms, rfl⟩ := gives_cons.mp hgives
  have hnodupp : (Body.labels p.code).Nodup := by
    rw [hready.labels]
    exact (nodup_append.mp hnodup).1
  have hlabels : ∀ {code : List Stm}, Body.labels code = ls →
      (Body.labels (code ++ ps.flatMap Staged.code)).Nodup := by
    intro code hcode
    rwa [Body.labels_append, hcode, hreadys.labels]
  obtain ⟨rfl, hcount⟩ | ⟨hkeep, rfl, rfl⟩ := protect_cases hq
  · -- the value is held in a temp that the others do not write
    obtain ⟨u₁, hends, hkept, hworld⟩ :=
      hp.held_runs (Exp.isCanonicalSource_of_isPure hready.pure) hnodupp a.tempCount hm hknown
    have hholder : ¬ (⟨a.tempCount, .holder⟩ : Temp).Under z := by
      rw [Temp.under_holder, hz]
      exact Nat.lt_irrefl _
    have hfirst : KeptBetween x ⟨z.plain, a.tempCount + 1⟩ u (u₁.set ⟨a.tempCount, .holder⟩ v) := by
      have hle : y.Le ⟨z.plain, a.tempCount + 1⟩ :=
        ⟨hyz.plain, Nat.le_trans hyz.holder (Nat.le_trans (Nat.le_of_eq hz) (Nat.le_succ _))⟩
      refine (hkept.mono (.refl x) hle).trans (.set (fun hunder => ?_) (Nat.lt_succ_self _) u₁ v)
      exact hholder (hunder.mono (hxy.trans hyz))
    obtain ⟨u₂, hends₂, hkept₂, hvalues, hworld₂⟩ := hps (u := u₁.set ⟨a.tempCount, .holder⟩ v)
      (by rw [outside_set, hworld]; exact hms) (hstable.kept hfirst (Nat.le_refl _) hknown)
    refine ⟨u₂, ?_, ?_, ?_, hworld₂⟩
    · exact hends.append hends₂ (hlabels ((p.labels_hold_code _).trans hready.labels)) (by simp)
    · rw [hcount]
      exact hfirst.trans (hkept₂.mono hxy
        ⟨Nat.le_refl _, Nat.le_trans (Nat.le_of_eq hz) (Nat.le_succ _)⟩)
    · rw [map_cons, hvalues]
      refine congrArg (· :: vs) ?_
      exact (hkept₂ _ (.inr hholder)).trans (Function.update_self ..)
  · obtain ⟨u₁, hends, hkept, hvalue, hworld⟩ := hp.runs hm hknown
    rw [Exp.eval_snd_of_isPure hready.pure] at hworld
    have hstays : KeptBetween x ⟨z.plain, b.tempCount⟩ u u₁ :=
      hkept.mono (.refl x) ⟨hyz.plain, Nat.le_trans hyz.holder (Nat.le_of_eq hz)⟩
    obtain ⟨u₂, hends₂, hkept₂, hvalues, hworld₂⟩ := hps (u := u₁) (by rw [hworld]; exact hms)
      (hstable.kept hstays (Nat.le_refl _) hknown)
    refine ⟨u₂, ?_, ?_, ?_, hworld₂⟩
    · exact hends.append hends₂ (hlabels hready.labels) (by simp)
    · exact hstays.trans (hkept₂.mono hxy ⟨Nat.le_refl _, (Nat.le_of_eq hz)⟩)
    · rw [map_cons, hvalues, ← hvalue]
      refine congrArg (· :: vs) ?_
      obtain hnone | hcommutes := hkeep
      · -- nothing runs after the value is computed
        rw [code_eq_nil_of_hasEffects hnone] at hends₂
        rw [hends₂.eq_of_nil]
      · obtain ⟨hleaf, hunder⟩ := hp.settled hcommutes
        exact eval_of_settled hleaf hunder hkept₂

/-- **Protected operands compute** their values one after the other. -/
theorem ComputeEach.protectAll {qs : List Staged} {ms : Action V M (List V)}
    (h : ComputeEach host known x y ps ms) (hready : AllReady ps ls) (hnodup : ls.Nodup)
    (hstable : Stable known x.plain) (hy : y.holder = a.tempCount)
    (hqs : (Staged.protectAll ps).run a = (qs, b)) :
    x.Le y ∧ ComputeAll host known x ⟨y.plain, b.tempCount⟩ qs ms := by
  induction h generalizing qs b ls with
  | nil x =>
    obtain ⟨rfl, rfl⟩ := Prod.mk.inj hqs
    refine ⟨.refl x, fun {u vs o} hgives _ => ?_⟩
    obtain ⟨rfl, rfl⟩ := gives_pure.mp hgives
    exact ⟨u, .nil u, .refl _ _ u, rfl, rfl⟩
  | @cons x y z p ps m ms hle hp _ ih =>
    obtain ⟨q, qs', c, b', hqs', hq, hall⟩ := Staged.protectAll_cons p ps a
    rw [hall] at hqs
    obtain ⟨rfl, rfl⟩ := Prod.mk.inj hqs
    have hlabels := hready.labels
    have htrim := hready.trim
    rw [flatMap_cons, Body.labels_append] at hlabels
    rw [flatMap_cons, forall_mem_append] at htrim
    obtain ⟨hpure, hpures⟩ := forall_mem_cons.mp hready.pure
    rw [← hlabels] at hnodup
    have hready' : AllReady ps (Body.labels (ps.flatMap code)) := ⟨htrim.2, hpures, rfl⟩
    obtain ⟨hle', htail⟩ := ih hready' (nodup_append.mp hnodup).2.1 (hstable.mono hle.plain) hy hqs'
    have hcount := le_of_protectAll hqs'
    refine ⟨hle.trans hle', ?_⟩
    exact ComputeAll.cons hp ⟨htrim.1, hpure, rfl⟩ htail (hready'.protectAll hqs') hle
      ⟨hle'.plain, Nat.le_trans hle'.holder (Nat.le_trans (Nat.le_of_eq hy) hcount)⟩ rfl hstable
      hnodup hq

/-- Two operands are protected like any others. -/
theorem protectAll_pair {p₁ p₂ q : Staged} (h : (p₁.protect p₂.hasEffects).run a = (q, b)) :
    (Staged.protectAll [p₁, p₂]).run a = ([q, p₂], b) := by
  have hany : [p₂].any hasEffects = p₂.hasEffects := by simp
  show ((p₁.protect ([p₂].any hasEffects)).run a).map (fun q => [q, p₂]) id = _
  rw [hany, h]
  rfl

end Staged

end TreeBackend
