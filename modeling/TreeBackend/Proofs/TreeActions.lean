import TreeBackend.Proofs.StagedCode

/-!
# Trees and the actions they carry out

A tree **means** an action if its parts compute it, whatever session the tree is
taken apart in (`Exp.Means`). There is one lemma for each way to build a tree
from others: what the whole means follows from what its operands mean, so that
nobody who builds trees needs to know how they are taken apart. The same is said
about statements that set a temp (`Stm.Sets`), and about branches
(`Stm.Branches`).
-/

namespace TreeBackend

open List World

variable {t : Temp}

section Means

variable {V M : Type} (host : Host V M) (known : (Temp → V) → Prop)

/-- The tree **means** the action, given what is known about the temps. It
writes plain temps with numbers from `lo` up to `hi` only, and holders. -/
structure Exp.Means (lo hi : Nat) (e : Exp) (m : Action V M V) : Prop where
  le : lo ≤ hi
  computes : e.labels.Nodup → ∀ {a b : Session} {p : Staged}, Yields e.stage a p b →
    p.Computes host known ⟨lo, a.tempCount⟩ ⟨hi, b.tempCount⟩ m

/-- The trees mean the actions that come to the values of a list. -/
structure Exp.AllMean (lo hi : Nat) (es : List Exp) (m : Action V M (List V)) : Prop where
  le : lo ≤ hi
  computes : (Exp.labelsAll es).Nodup → ∀ {a b : Session} {ps : List Staged},
    Yields (Exp.stageAll es) a ps b →
      Staged.ComputeEach host known ⟨lo, a.tempCount⟩ ⟨hi, b.tempCount⟩ ps m

/-- The statement **sets** a temp to what the action comes to. -/
structure Stm.Sets (lo hi : Nat) (stm : Stm) (t : Temp) (m : Action V M V) : Prop where
  le : lo ≤ hi
  runs : stm.labels.Nodup → ∀ {a b : Session} {c : Stm}, Yields stm.canonicalize a c b →
    ∀ {u : World V M} {v : V} {o : Outside V M}, Gives m u.outside v o → known u.temps →
      ∃ u', Body.Ends host c.linear u none u' ∧
        KeptBetween ⟨lo, a.tempCount⟩ ⟨hi, b.tempCount⟩ u u' ∧ u'.temps t = v ∧ u'.outside = o

/-- The statement **branches** to the target if the action comes to the truth,
and goes on otherwise. -/
structure Stm.Branches (lo hi : Nat) (stm : Stm) (target : Label) (m : Action V M Bool) : Prop where
  le : lo ≤ hi
  runs : stm.labels.Nodup → target ∉ stm.labels → ∀ {a b : Session} {c : Stm},
    Yields stm.canonicalize a c b →
    ∀ {u : World V M} {v : Bool} {o : Outside V M}, Gives m u.outside v o → known u.temps →
      ∃ u', Body.Ends host c.linear u (if v then some target else none) u' ∧
        KeptBetween ⟨lo, a.tempCount⟩ ⟨hi, b.tempCount⟩ u u' ∧ u'.outside = o

end Means

namespace Exp

variable {V M : Type} {host : Host V M} {known : (Temp → V) → Prop} {lo mid hi : Nat}
  {e l r f : Exp} {m m₁ m₂ : Action V M V}

namespace Means

/-- **Pure trees** mean what they evaluate to. -/
theorem of_pure (hle : lo ≤ hi) (hpure : e.isPure = true)
    (hsettled : e.commutes = true → e.isLeaf = true)
    (hunder : ∀ t, e = .temp t → ∀ n, t.Under ⟨hi, n⟩)
    (hvalue : ∀ {u : World V M} {v : V} {o : Outside V M}, Gives m u.outside v o → known u.temps →
      (e.eval host u).1 = v ∧ u.outside = o) : e.Means host known lo hi m where
  le := hle
  computes _ a b p hp := by
    obtain ⟨rfl, rfl⟩ := hp.unique (stage_of_isPure hpure a)
    refine ⟨fun hcommutes => ⟨hsettled hcommutes, fun t ht => hunder t ht _⟩, ?_⟩
    intro u v o hm hknown
    obtain ⟨hv, ho⟩ := hvalue hm hknown
    refine ⟨u, .nil u, .refl _ _ u, hv, ?_⟩
    show (e.eval host u).2.outside = o
    rw [eval_snd_of_isPure hpure, ho]

theorem const (lo : Nat) (n : Int64) : (Exp.const n).Means host known lo lo (pure (host.const n)) :=
  .of_pure (Nat.le_refl _) rfl (fun _ => rfl) nofun fun hgives _ => gives_pure.mp hgives

theorem name (lo : Nat) (l : Label) : (Exp.name l).Means host known lo lo (pure (host.name l)) :=
  .of_pure (Nat.le_refl _) rfl (fun _ => rfl) nofun fun hgives _ => gives_pure.mp hgives

/-- A temp whose content is known. -/
theorem temp {t : Temp} {v : V} (ht : ∀ n, t.Under ⟨lo, n⟩) (hv : ∀ f, known f → f t = v) :
    (Exp.temp t).Means host known lo lo (pure v) := by
  refine .of_pure (Nat.le_refl _) rfl (fun _ => rfl) ?_ ?_
  · intro t' heq
    obtain rfl := Exp.temp.inj heq
    exact ht
  · intro u v' o hgives hknown
    obtain ⟨rfl, ho⟩ := gives_pure.mp hgives
    exact ⟨hv _ hknown, ho⟩

/-- A constant means nothing but itself. -/
theorem of_const {n : Int64} (h : (Exp.const n).Means host known lo hi m) {u : World V M} {v : V}
    {o : Outside V M} (hgives : Gives m u.outside v o) (hknown : known u.temps) :
    host.const n = v ∧ u.outside = o := by
  obtain ⟨u', hends, -, hv, ho⟩ :=
    (h.computes nodup_nil (a := {}) (p := .ofValue (.const n)) rfl).runs hgives hknown
  obtain rfl : u' = u := hends.eq_of_nil
  exact ⟨hv, ho⟩

/-- The same tree, seen as another action. -/
theorem imp {m' : Action V M V} (h : e.Means host known lo hi m)
    (himp : ∀ {o v o'}, Gives m' o v o' → Gives m o v o') : e.Means host known lo hi m' where
  le := h.le
  computes hnodup _ _ _ hp :=
    ⟨(h.computes hnodup hp).settled, fun hm => (h.computes hnodup hp).runs (himp hm)⟩

theorem stagePure (h : e.Means host known lo hi m) (hnodup : e.labels.Nodup) {a b : Session}
    {q : Staged} (hq : Yields e.stagePure a q b) :
    q.Computes host known ⟨lo, a.tempCount⟩ ⟨hi, b.tempCount⟩ m ∧ q.Ready e.labels ∧
      Mark.Le ⟨lo, a.tempCount⟩ ⟨hi, b.tempCount⟩ := by
  have hready := ready_of (fun h => e.hasParts h) hq
  have hle := le_of_stagePure hq
  obtain ⟨p, u, hp, hq⟩ := yields_stagePure.mp hq
  have hparts := e.hasParts hp
  refine ⟨?_, hready, h.le, hle⟩
  refine Staged.Computes.holdCall (z := ⟨hi, 0⟩) (h.computes hnodup hp) hparts.source ?_
    ⟨h.le, le_of_stage hp⟩ hq
  rw [hparts.labels]
  exact hnodup

/-- **Two operands** compute their values one after the other. -/
theorem pair (hl : l.Means host known lo mid m₁) (hr : r.Means host known mid hi m₂)
    (hstable : Stable known lo) (hnodup : (l.labels ++ r.labels).Nodup) {a b u v : Session}
    {q₁ q₂ q : Staged} (hq₁ : Yields l.stagePure a q₁ u) (hq₂ : Yields r.stagePure u q₂ v)
    (hq : (q₁.protect q₂.hasEffects).run v = (q, b)) :
    Staged.AllReady [q, q₂] (l.labels ++ r.labels) ∧
      ∀ {w : World V M} {x y : V} {o₁ o : Outside V M}, Gives m₁ w.outside x o₁ →
        Gives m₂ o₁ y o → known w.temps → ∃ w', Body.Ends host (q.code ++ q₂.code) w none w' ∧
          KeptBetween ⟨lo, a.tempCount⟩ ⟨hi, b.tempCount⟩ w w' ∧ (q.value.eval host w').1 = x ∧
          (q₂.value.eval host w').1 = y ∧ w'.outside = o := by
  obtain ⟨hnodupl, hnodupr, -⟩ := nodup_append.mp hnodup
  obtain ⟨hcomputesl, hreadyl, hlel⟩ := hl.stagePure hnodupl hq₁
  obtain ⟨hcomputesr, hreadyr, hler⟩ := hr.stagePure hnodupr hq₂
  refine ⟨hreadyl.pair hreadyr hq, ?_⟩
  have hreadys : Staged.AllReady [q₂] r.labels :=
    ⟨by simpa using hreadyr.trim, by simpa using hreadyr.pure, by simpa using hreadyr.labels⟩
  have heach : Staged.ComputeEach host known ⟨lo, a.tempCount⟩ ⟨hi, v.tempCount⟩ [q₁, q₂]
      (m₁.cons (m₂.cons (pure []))) :=
    .cons hlel hcomputesl (.cons hler hcomputesr (.nil _))
  obtain ⟨-, hall⟩ := heach.protectAll (hreadyl.cons hreadys) hnodup hstable rfl
    (Staged.protectAll_pair hq)
  intro w x y o₁ o hm₁ hm₂ hknown
  have hgives : Gives (m₁.cons (m₂.cons (pure []))) w.outside [x, y] o :=
    gives_cons.mpr ⟨x, [y], o₁, hm₁, gives_cons.mpr ⟨y, [], o, hm₂, gives_pure.mpr ⟨rfl, rfl⟩, rfl⟩,
      rfl⟩
  obtain ⟨w', hends, hkept, hvalues, hworld⟩ := hall hgives hknown
  obtain ⟨hx, hy⟩ := List.cons.inj hvalues
  refine ⟨w', ?_, hkept, hx, (List.cons.inj hy).1, hworld⟩
  simpa using hends

/-! ## Operators and reads -/

theorem binop (hl : l.Means host known lo mid m₁) (hr : r.Means host known mid hi m₂)
    (hstable : Stable known lo) (op : BinOp) :
    (Exp.binop op l r).Means host known lo hi (do
      let x ← m₁
      let y ← m₂
      return host.binop op x y) where
  le := Nat.le_trans hl.le hr.le
  computes hnodup a b p hp := by
    rw [labels_binop] at hnodup
    obtain ⟨q₁, u, q₂, v, q, hq₁, hq₂, hq, rfl⟩ := yields_stage_binop.mp hp
    obtain ⟨hready, hruns⟩ := hl.pair hr hstable hnodup hq₁ hq₂ hq
    have hpure : q.value.isPure = true := hready.pure q (by simp)
    have hpure₂ : q₂.value.isPure = true := hready.pure q₂ (by simp)
    refine ⟨nofun, ?_⟩
    intro w z o hm hknown
    simp only [gives_bind, gives_pure] at hm
    obtain ⟨x, o₁, hm₁, y, o₂, hm₂, rfl, rfl⟩ := hm
    obtain ⟨w', hends, hkept, hx, hy, hworld⟩ := hruns hm₁ hm₂ hknown
    refine ⟨w', by simpa [Staged.code] using hends, hkept, ?_, ?_⟩
    · rw [eval, eval_snd_of_isPure hpure, hx, hy]
    · rw [eval, eval_snd_of_isPure hpure, eval_snd_of_isPure hpure₂, hworld]

theorem not (h : e.Means host known lo hi m) :
    (Exp.not e).Means host known lo hi (do return host.not (← m)) where
  le := h.le
  computes hnodup a b p hp := by
    obtain ⟨q, hq, rfl⟩ := yields_stage_not.mp hp
    obtain ⟨hcomputes, -, -⟩ := h.stagePure hnodup hq
    refine ⟨nofun, ?_⟩
    intro w z o hm hknown
    simp only [gives_bind, gives_pure] at hm
    obtain ⟨x, o₁, hm, rfl, rfl⟩ := hm
    obtain ⟨w', hends, hkept, hx, hworld⟩ := hcomputes.runs hm hknown
    exact ⟨w', hends, hkept, congrArg host.not hx, hworld⟩

/-- A read from a computed address. -/
theorem read {op : BinOp} (h : (Exp.binop op l r).Means host known lo hi m) :
    (Exp.mem (.binop op l r)).Means host known lo hi (m >>= Action.load host) where
  le := h.le
  computes hnodup a b p hp := by
    obtain ⟨q, hq, rfl⟩ := yields_stage_mem.mp hp
    obtain ⟨hcomputes, hready, -⟩ := h.stagePure hnodup hq
    have hbinop : ∃ x y, q.value = .binop op x y := by
      obtain ⟨p, u, hp, hheld⟩ := yields_stagePure.mp hq
      obtain ⟨_, _, _, _, _, _, _, _, rfl⟩ := yields_stage_binop.mp hp
      obtain ⟨⟨f, args, heq⟩, -⟩ | ⟨-, rfl, -⟩ := Staged.holdCall_cases hheld
      · cases heq
      · exact ⟨_, _, rfl⟩
    refine ⟨fun hcommutes => ?_, ?_⟩
    · obtain ⟨x, y, heq⟩ := hbinop
      replace hcommutes : q.value.commutes = true := hcommutes
      rw [heq] at hcommutes
      cases hcommutes
    · intro w z o hm hknown
      obtain ⟨x, o₁, hm, hload⟩ := gives_bind.mp hm
      obtain ⟨w', hends, hkept, hx, hworld⟩ := hcomputes.runs hm hknown
      rw [eval_snd_of_isPure hready.pure] at hworld
      rw [← hworld, gives_load] at hload
      refine ⟨w', hends, hkept, ?_, ?_⟩
      · show host.load (q.value.eval host w').2.memory (q.value.eval host w').1 = z
        rw [eval_snd_of_isPure hready.pure, hx, hload.1]
      · show (q.value.eval host w').2.outside = o
        rw [eval_snd_of_isPure hready.pure, hload.2]

end Means

/-! ## Calls -/

theorem AllMean.nil (lo : Nat) : AllMean host known lo lo [] (pure []) where
  le := Nat.le_refl _
  computes _ a b ps hps := by
    obtain ⟨rfl, rfl⟩ := yields_pure.mp hps
    exact .nil _

theorem AllMean.cons {es : List Exp} {ms : Action V M (List V)}
    (h : e.Means host known lo mid m) (hes : AllMean host known mid hi es ms) :
    AllMean host known lo hi (e :: es) (m.cons ms) where
  le := Nat.le_trans h.le hes.le
  computes hnodup a b ps hps := by
    rw [labelsAll_cons, nodup_append] at hnodup
    obtain ⟨q, u, qs, hq, hqs, rfl⟩ := yields_stageAll_cons.mp hps
    obtain ⟨hcomputes, -, hle⟩ := h.stagePure hnodup.1 hq
    exact .cons hle hcomputes (hes.computes hnodup.2.1 hqs)

theorem Means.call {args : List Exp} {ms : Action V M (List V)}
    (hf : f.Means host known lo mid m) (hargs : AllMean host known mid hi args ms)
    (hstable : Stable known lo) :
    (Exp.call f args).Means host known lo hi (do
      let g ← m
      let vs ← ms
      Action.call host g vs) where
  le := Nat.le_trans hf.le hargs.le
  computes hnodup a b p hp := by
    rw [labels_call] at hnodup
    obtain ⟨q₁, u, ps, v, q, qs, hq₁, hps, hqs, rfl⟩ := yields_stage_call.mp hp
    obtain ⟨hcomputes, hready, hle⟩ := hf.stagePure (nodup_append.mp hnodup).1 hq₁
    have hreadys := Exp.allReady args hps
    have heach := Staged.ComputeEach.cons hle hcomputes
      (hargs.computes (nodup_append.mp hnodup).2.1 hps)
    obtain ⟨-, hall⟩ := heach.protectAll (hready.cons hreadys) hnodup hstable rfl hqs
    obtain ⟨hpure, hpures⟩ := forall_mem_cons.mp ((hready.cons hreadys).protectAll hqs).pure
    refine ⟨nofun, ?_⟩
    intro w z o hm hknown
    simp only [gives_bind] at hm
    obtain ⟨g, o₁, hm, vs, o₂, hms, hcall⟩ := hm
    obtain ⟨w', hends, hkept, hvalues, hworld⟩ :=
      hall (gives_cons.mpr ⟨g, vs, o₁, hm, hms, rfl⟩) hknown
    obtain ⟨hg, hvs⟩ := List.cons.inj hvalues
    rw [← hworld, gives_call, ← hg, ← hvs] at hcall
    have heval : (Exp.call q.value (qs.map Staged.value)).eval host w' =
        w'.call host (q.value.eval host w').1 (qs.map fun q => (q.value.eval host w').1) := by
      rw [eval, eval_snd_of_isPure hpure, evalAll_of_isPure (by simpa using hpures), map_map]
      rfl
    have hcode : Staged.code ⟨q.effects ++ qs.flatMap Staged.effects,
        .call q.value (qs.map Staged.value)⟩ = (q :: qs).flatMap Staged.code := by
      rw [Staged.code, flatMap_append, flatMap_assoc, flatMap_cons]
      rfl
    refine ⟨w', ?_, hkept, ?_, ?_⟩
    · rw [hcode]
      exact hends
    · rw [heval, hcall.1]
    · rw [heval, hcall.2]

/-- A call of a named routine with one argument. -/
theorem Means.call_name (h : e.Means host known lo hi m) (hstable : Stable known lo) (l : Label) :
    (Exp.call (.name l) [e]).Means host known lo hi (do
      let v ← m
      Action.call host (host.name l) [v]) := by
  have := (Means.name lo l).call (.cons h (.nil hi)) hstable
  simp only [Action.cons, pure_bind, bind_assoc] at this
  exact this

/-! ## Statements before a value -/

/-- **A temp that is set first** is known to the value after it. -/
theorem Means.eseq {stm : Stm} {m₂ : V → Action V M V} (hstm : stm.Sets host known lo mid t m)
    (he : ∀ v, e.Means host (fun f => known f ∧ f t = v) mid hi (m₂ v)) (hstable : Stable known lo) :
    (Exp.eseq stm e).Means host known lo hi (m >>= m₂) where
  le := Nat.le_trans hstm.le (he (host.const 0)).le
  computes hnodup a b p hp := by
    rw [labels_eseq] at hnodup
    obtain ⟨hnodup₁, hnodup₂, -⟩ := nodup_append.mp hnodup
    obtain ⟨c, u, q, hc, hq, rfl⟩ := yields_stage_eseq.mp hp
    have hform := stm.hasForm hc
    have hle : Mark.Le ⟨lo, a.tempCount⟩ ⟨mid, u.tempCount⟩ := ⟨hstm.le, Stm.le_of_canonicalize hc⟩
    have hcode : Staged.code ⟨(if c.isNop then [] else [c]) ++ q.effects, q.value⟩ =
        c.linear ++ q.code := by
      rw [Staged.code, flatMap_append, Stm.flatMap_linear_unless_nop]
      rfl
    refine ⟨((he (host.const 0)).stagePure hnodup₂ hq).1.settled, ?_⟩
    intro w z o hm hknown
    obtain ⟨v, o₁, hm, hm₂⟩ := gives_bind.mp hm
    obtain ⟨hcomputes, hready, hle'⟩ := (he v).stagePure hnodup₂ hq
    obtain ⟨w₁, hends₁, hkept₁, ht, rfl⟩ := hstm.runs hnodup₁ hc hm hknown
    obtain ⟨w₂, hends₂, hkept₂, hv, ho⟩ :=
      hcomputes.runs hm₂ ⟨hstable.kept hkept₁ (Nat.le_refl _) hknown, ht⟩
    refine ⟨w₂, ?_, (hkept₁.mono (.refl _) hle').trans (hkept₂.mono hle (.refl _)), hv, ho⟩
    rw [hcode]
    refine hends₁.append hends₂ ?_ (by simp)
    rwa [Body.labels_append, hform.labels, hready.labels]

/-- The temp that was set last is the value. -/
theorem Means.eseq_temp {stm : Stm} (hstm : stm.Sets host known lo hi t m)
    (ht : ∀ n, t.Under ⟨hi, n⟩) (hstable : Stable known lo) :
    (Exp.eseq stm (.temp t)).Means host known lo hi m := by
  have := Means.eseq hstm (fun v => Means.temp ht fun _ hknown => hknown.2) hstable
  rwa [bind_pure] at this

/-! ## Moves, and values that are dropped -/

section Moves

variable {a b : Session} {c : Stm} {u : World V M} {v v₁ v₂ : V} {o o₁ o₂ : Outside V M}

/-- A move into a temp writes the temp after all else. -/
theorem Means.move_temp (h : e.Means host known lo hi m) (hnodup : e.labels.Nodup)
    (hc : Yields (Stm.move (.temp t) e).canonicalize a c b) (hm : Gives m u.outside v o)
    (hknown : known u.temps) :
    ∃ u', Body.Ends host c.linear u none (u'.set t v) ∧
      KeptBetween ⟨lo, a.tempCount⟩ ⟨hi, b.tempCount⟩ u u' ∧ u'.outside = o := by
  simp only [Stm.canonicalize_move, moveInto, yields_bind, yields_pure] at hc
  obtain ⟨p, b', hp, rfl, rfl⟩ := hc
  have hparts := e.hasParts hp
  obtain ⟨u', hends, hkept, hv, ho⟩ := (h.computes hnodup hp).runs hm hknown
  refine ⟨(p.value.eval host u').2, ?_, fun t ht => ?_, ho⟩
  · rw [Staged.andThen, Stm.linear_seqAll, flatMap_append, ← hv]
    refine hends.append (.move (.temp t) p.value u') ?_ (by simp)
    rw [Body.labels_append, hparts.labels]
    exact (append_nil _).symm ▸ hnodup
  · rw [eval_snd_temps hparts.source]
    exact hkept t ht

/-- A move into memory writes the word after all else. -/
theorem Means.move_mem (hl : l.Means host known lo mid m₁) (hr : r.Means host known mid hi m₂)
    (hstable : Stable known lo) (hnodup : (l.labels ++ r.labels).Nodup)
    (hc : Yields (Stm.move (.mem l) r).canonicalize a c b) (hm₁ : Gives m₁ u.outside v₁ o₁)
    (hm₂ : Gives m₂ o₁ v₂ o₂) (hknown : known u.temps) :
    ∃ u', Body.Ends host c.linear u none (u'.store host v₁ v₂) ∧
      KeptBetween ⟨lo, a.tempCount⟩ ⟨hi, b.tempCount⟩ u u' ∧ u'.outside = o₂ := by
  rw [Stm.canonicalize_move] at hc
  obtain ⟨q₁, s, p₂, s', q₂, s'', q, hq₁, hp₂, hq₂, hq, rfl⟩ := yields_moveInto_mem.mp hc
  obtain ⟨hready, hruns⟩ := hl.pair hr hstable hnodup hq₁
    (yields_stagePure.mpr ⟨p₂, s', hp₂, hq₂⟩) hq
  obtain ⟨u', hends, hkept, hv₁, hv₂, ho⟩ := hruns hm₁ hm₂ hknown
  have hpure : q.value.isPure = true := hready.pure q (by simp)
  have hpure₂ : q₂.value.isPure = true := hready.pure q₂ (by simp)
  have hmove : (Stm.move (.mem q.value) q₂.value).exec host u' = u'.store host v₁ v₂ := by
    rw [Stm.exec, assign, eval_snd_of_isPure hpure, eval_snd_of_isPure hpure₂, hv₁, hv₂]
  refine ⟨u', ?_, hkept, ho⟩
  rw [Stm.linear_seqAll, flatMap_append, flatMap_append, ← hmove]
  refine hends.append (.move (.mem q.value) q₂.value u') ?_ (by simp)
  have hlabels : Body.labels (q.code ++ q₂.code) = l.labels ++ r.labels := by
    simpa using hready.labels
  rw [Body.labels_append, hlabels]
  exact (append_nil _).symm ▸ hnodup

/-- A value that is dropped leaves its effects. -/
theorem Means.drop (h : e.Means host known lo hi m) (hnodup : e.labels.Nodup)
    (hc : Yields (Stm.exp e).canonicalize a c b) (hm : Gives m u.outside v o)
    (hknown : known u.temps) :
    ∃ u', Body.Ends host c.linear u none u' ∧
      KeptBetween ⟨lo, a.tempCount⟩ ⟨hi, b.tempCount⟩ u u' ∧ u'.outside = o := by
  obtain ⟨p, hp, rfl⟩ := Stm.yields_canonicalize_exp.mp hc
  have hparts := e.hasParts hp
  obtain ⟨u', hends, hkept, -, ho⟩ := (h.computes hnodup hp).runs hm hknown
  rw [Stm.linear_seqAll, flatMap_append]
  split
  · next hleaf =>
    rw [eval_snd_of_isPure (isPure_of_isLeaf hleaf)] at ho
    refine ⟨u', ?_, hkept, ho⟩
    rw [flatMap_nil, append_nil]
    exact hends
  · next hleaf =>
    refine ⟨(p.value.eval host u').2, ?_, fun t ht => ?_, ho⟩
    · rw [flatMap_singleton, Stm.linear_exp (by simpa using hleaf)]
      refine hends.append (.exp p.value u') ?_ (by simp)
      rw [Body.labels_append, hparts.labels]
      exact (append_nil _).symm ▸ hnodup
    · rw [eval_snd_temps hparts.source]
      exact hkept t ht

/-- A move into a new temp sets it. -/
theorem Means.sets (h : e.Means host known lo hi m) (name : String) :
    (Stm.move (.temp ⟨hi, .plain name⟩) e).Sets host known lo (hi + 1) ⟨hi, .plain name⟩ m where
  le := Nat.le_succ_of_le h.le
  runs hnodup a b c hc u v o hm hknown := by
    obtain ⟨u', hends, hkept, ho⟩ := h.move_temp hnodup hc hm hknown
    have hle : Mark.Le ⟨hi, b.tempCount⟩ ⟨hi + 1, b.tempCount⟩ := ⟨Nat.le_succ _, Nat.le_refl _⟩
    refine ⟨_, hends, ?_, Function.update_self .., ho⟩
    refine (hkept.mono (.refl _) hle).trans
      (.set ?_ (Temp.under_plain.mpr (Nat.lt_succ_self hi)) u' v)
    exact fun hunder => Nat.not_lt.mpr h.le (Temp.under_plain.mp hunder)

/-- **A comparison** of two values branches. -/
theorem Means.branches (hl : l.Means host known lo mid m₁) (hr : r.Means host known mid hi m₂)
    (hstable : Stable known lo) (rel : RelOp) (target : Label) :
    (Stm.cjump rel l r target).Branches host known lo hi target (do
      let x ← m₁
      let y ← m₂
      return host.holds rel x y) where
  le := Nat.le_trans hl.le hr.le
  runs hnodup htarget a b c hc u z o hm hknown := by
    rw [Stm.labels_cjump] at hnodup htarget
    obtain ⟨q₁, s, q₂, s', q, hq₁, hq₂, hq, rfl⟩ := Stm.yields_canonicalize_cjump.mp hc
    obtain ⟨hready, hruns⟩ := hl.pair hr hstable hnodup hq₁ hq₂ hq
    simp only [gives_bind, gives_pure] at hm
    obtain ⟨x, o₁, hm₁, y, o₂, hm₂, rfl, rfl⟩ := hm
    obtain ⟨u', hends, hkept, hx, hy, ho⟩ := hruns hm₁ hm₂ hknown
    have hlabels : Body.labels (q.code ++ q₂.code) = l.labels ++ r.labels := by
      simpa using hready.labels
    refine ⟨u', ?_, hkept, ho⟩
    rw [Stm.linear_seqAll, flatMap_append, flatMap_append, ← hx, ← hy]
    refine hends.append
      (.cjump (hready.pure q (by simp)) (hready.pure q₂ (by simp)) target u') ?_ ?_
    · rw [Body.labels_append, hlabels]
      exact (append_nil _).symm ▸ hnodup
    · intro l' hl' hmem
      have heq : target = l' := by
        split at hl'
        · exact Option.some.inj hl'
        · cases hl'
      exact htarget (heq ▸ hlabels ▸ hmem)

end Moves

end Exp

end TreeBackend
