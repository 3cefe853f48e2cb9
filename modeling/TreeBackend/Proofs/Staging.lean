import TreeBackend.Proofs.StagedForms
import TreeBackend.Proofs.TreeEffects

/-!
# Taking trees apart

Canonicalization splits an expression into effects and a value, and this
module says that the two parts do what the expression does: run the effects,
then take the value. Worlds are compared on the temps of the session
that the tree was built in, since the parts also write the holders drawn on
the way.

Two things are remembered of the parts besides what they mean. The effects
write no temp that the expression does not assign, other than holders of their
own, and touch the memory only if the expression does (`Effects`). And a value
that commutes is a chain over what the expression itself is a chain over, or
over such a holder (`Exp.ChainOf`). Together they show that a value survives the
effects of later operands (`Operands.of_protectAll`): if it does not commute it
is held, and if it does, it is not disturbed.
-/

namespace TreeBackend

open List World

variable {p : Staged} {ps : List Staged} {e : Exp}

/-! ## The parts of an expression -/

namespace Staged

/-- Run the effects, then take the value. -/
def eval {V M : Type} (host : Host V M) (p : Staged) (w : World V M) : V × World V M :=
  p.value.eval host (Stm.execAll host p.effects w)

/-- The parts with their value held in the holder number `k`. -/
def held (p : Staged) (k : Nat) : Staged :=
  ⟨p.effects ++ [.move (.temp ⟨k, .holder⟩) p.value], .temp ⟨k, .holder⟩⟩

theorem eval_held {V M : Type} (host : Host V M) (p : Staged) (k : Nat) (w : World V M) :
    (p.held k).eval host w
      = ((p.eval host w).1, (p.eval host w).2.set ⟨k, .holder⟩ (p.eval host w).1) := by
  unfold eval held
  rw [Stm.execAll_append]
  show (Function.update _ _ _ _, _) = _
  rw [Function.update_self]
  rfl

/-- The first operand is protected last, from what the others have become. -/
theorem protectAll_cons (p : Staged) (ps : List Staged) (a : Session) :
    ∃ q qs c b, (protectAll ps).run a = (qs, c) ∧ (p.protect (qs.any hasEffects)).run c = (q, b) ∧
      (protectAll (p :: ps)).run a = (q :: qs, b) :=
  ⟨_, _, _, _, rfl, rfl, rfl⟩

/-- A call protects its function and its arguments as operands. -/
theorem combineCall_run {q : Staged} {qs : List Staged} {a b : Session}
    (h : (protectAll (p :: ps)).run a = (q :: qs, b)) :
    (p.combineCall ps).run a
      = (⟨q.effects ++ qs.flatMap effects, .call q.value (qs.map value)⟩, b) := by
  obtain ⟨q', qs', c, b', hqs, hq, hall⟩ := protectAll_cons p ps a
  rw [h] at hall
  obtain ⟨⟨rfl, rfl⟩, rfl⟩ := Prod.mk.inj hall |>.imp_left List.cons.inj
  rw [combineCall, StateT.run_bind, hqs]
  show ((p.protect (qs.any hasEffects)).run c).map (fun f =>
    (⟨f.effects ++ qs.flatMap effects, .call f.value (qs.map value)⟩ : Staged)) id = _
  rw [hq]
  rfl

end Staged

variable {s : Session} {lo hi : Nat}

/-- Holding a value is one more effect. -/
theorem Effects.held {ns : List Node} {k : Nat} (h : Effects s ns lo hi p.effects) (hlo : lo ≤ k)
    (hhi : hi ≤ k) (hsource : p.value.isCanonicalSource = true)
    (hcall : p.value.isPure = true ∨ ns.any Node.touchesMemory = true) :
    Effects s ns lo (k + 1) (p.held k).effects :=
  (h.mono ns (fun _ => id) id (Nat.le_refl lo) (Nat.le_succ_of_le hhi)).append
    (move_temp (.inr ⟨rfl, hlo, Nat.lt_succ_self k⟩) hsource hcall)

/-- The value `v` of the expression `e` is a chain over what `e` is a chain
over, or over a holder with a number from `lo` up to `hi`. -/
structure Exp.ChainOf (s : Session) (e : Exp) (lo hi : Nat) (v : Exp) : Prop where
  chain : e.isChain = true
  base : ∀ t, v.base? = some t → s.Owns t ∧ e.base? = some t ∨ t.HolderIn lo hi
  reads : v.isReadChain = true → e.isReadChain = true

/-- The expression **is staged as** `p`: effects and value do what it does.
Numbers from `lo` up to `hi` were drawn for holders. -/
structure Exp.StagedAs (s : Session) (e : Exp) (lo hi : Nat) (p : Staged) : Prop where
  le : lo ≤ hi
  effects : Effects s e.nodes lo hi p.effects
  source : p.value.isCanonicalSource = true
  pure_or_call : p.value.isPure = true ∨ ∃ f args, e = .call f args
  chain : p.value.commutes = true → e.ChainOf s lo hi p.value
  meaning : ∀ {V M : Type} (host : Host V M) {w u : World V M}, Agree s.Owns w u →
    SameResult s.Owns (e.eval host w) (p.eval host u)

namespace Exp.StagedAs

variable {s : Session} {lo hi k : Nat}

theorem pure_or_touchesMemory (h : e.StagedAs s lo hi p) :
    p.value.isPure = true ∨ e.nodes.any Node.touchesMemory = true := by
  obtain hpure | ⟨f, args, rfl⟩ := h.pure_or_call
  · exact .inl hpure
  · exact .inr (any_eq_true.mpr ⟨_, mem_cons_self, rfl⟩)

/-- The same expression with its value held. -/
theorem held_meaning (h : e.StagedAs s lo hi p) (hk : s.tempCount ≤ k) {V M : Type}
    (host : Host V M) {w u : World V M} (hagree : Agree s.Owns w u) :
    SameResult s.Owns (e.eval host w) ((p.held k).eval host u) := by
  have hsame := h.meaning host hagree
  rw [Staged.eval_held]
  exact ⟨hsame.value, hsame.world.set_of_not (Session.not_owns_holder hk) _⟩

/-- **Calls are held**, so that the value is pure. -/
theorem holdCall {a b : Session} {q : Staged} (h : e.StagedAs s lo a.tempCount p)
    (hle : s.tempCount ≤ lo) (hq : p.holdCall.run a = (q, b)) :
    e.StagedAs s lo b.tempCount q ∧ q.value.isPure = true := by
  obtain ⟨effects, value⟩ := p
  -- a canonical source that is no call is pure already
  by_cases hcall : ∃ f args, value = .call f args
  · obtain ⟨f, args, rfl⟩ := hcall
    obtain ⟨rfl, rfl⟩ : Staged.held ⟨effects, .call f args⟩ a.tempCount = q ∧
        a.withTemp "holder" = b := Prod.mk.inj hq
    obtain ⟨f', args', rfl⟩ : ∃ f args, e = .call f args := by
      obtain hpure | hcall := h.pure_or_call
      · cases hpure
      · exact hcall
    refine ⟨⟨Nat.le_succ_of_le h.le, ?_, rfl, .inl rfl, fun _ => ⟨rfl, ?_, fun hread => ?_⟩, ?_⟩,
      rfl⟩
    · exact h.effects.held h.le (Nat.le_refl _) h.source h.pure_or_touchesMemory
    · intro t ht
      obtain rfl : (⟨a.tempCount, .holder⟩ : Temp) = t := Option.some.inj ht
      exact .inr ⟨rfl, h.le, Nat.lt_succ_self _⟩
    · cases hread
    · intro V M host w u hagree
      exact h.held_meaning (Nat.le_trans hle h.le) host hagree
  · have hsame : Staged.holdCall ⟨effects, value⟩ = pure ⟨effects, value⟩ := by
      unfold Staged.holdCall
      split
      · next f args heq => exact absurd ⟨f, args, heq⟩ hcall
      · rfl
    rw [hsame] at hq
    obtain ⟨rfl, rfl⟩ := Prod.mk.inj hq
    refine ⟨h, ?_⟩
    have hsource := h.source
    unfold Exp.isCanonicalSource at hsource
    split at hsource
    · next f args heq => exact absurd ⟨f, args, heq⟩ hcall
    · exact hsource

end Exp.StagedAs

/-! ## Operands -/

/-- Expressions staged one after the other, with pure values. -/
inductive StagedAll (s : Session) : List Exp → Nat → Nat → List Staged → Prop where
  | nil (lo : Nat) : StagedAll s [] lo lo []
  | cons {e : Exp} {es : List Exp} {lo mid hi : Nat} {p : Staged} {ps : List Staged}
      (head : e.StagedAs s lo mid p) (pure : p.value.isPure = true)
      (tail : StagedAll s es mid hi ps) : StagedAll s (e :: es) lo hi (p :: ps)

theorem StagedAll.le {es : List Exp} (h : StagedAll s es lo hi ps) : lo ≤ hi := by
  induction h with
  | nil lo => exact Nat.le_refl lo
  | cons head _ _ ih => exact Nat.le_trans head.le ih

/-- The expressions are **operands** with the parts `ps`: when all effects have
run, one after the other, all values can be taken. -/
structure Operands (s : Session) (es : List Exp) (lo hi : Nat) (ps : List Staged) : Prop where
  effects : Effects s (Exp.nodesAll es) lo hi (ps.flatMap Staged.effects)
  pure : ∀ v ∈ ps.map Staged.value, v.isPure = true
  meaning : ∀ {V M : Type} (host : Host V M) {w u : World V M}, Agree s.Owns w u →
    SameResult s.Owns (Exp.evalAll host es w) (Exp.evalAll host (ps.map Staged.value)
        (Stm.execAll host (ps.flatMap Staged.effects) u))

namespace Operands

variable {s : Session} {es : List Exp} {lo mid hi k : Nat}

/-- One more operand in front, if its value **survives** the effects of the
others. -/
theorem cons (heffects : Effects s e.nodes lo hi p.effects) (hpure : p.value.isPure = true)
    (hmeaning : ∀ {V M : Type} (host : Host V M) {w u : World V M}, Agree s.Owns w u →
      SameResult s.Owns (e.eval host w) (p.eval host u))
    (hps : Operands s es mid k ps) (hlo : lo ≤ mid) (hk : k ≤ hi)
    (hsurvives : ∀ {V M : Type} (host : Host V M) (u : World V M),
      (p.value.eval host (Stm.execAll host (ps.flatMap Staged.effects) u)).1
        = (p.value.eval host u).1) :
    Operands s (e :: es) lo hi (p :: ps) where
  effects := by
    rw [flatMap_cons, Exp.nodesAll]
    exact (heffects.mono _ (by simp +contextual) (by simp +contextual) (Nat.le_refl lo)
      (Nat.le_refl hi)).append
        (hps.effects.mono _ (by simp +contextual) (by simp +contextual) hlo hk)
  pure := forall_mem_cons.mpr ⟨hpure, hps.pure⟩
  meaning host w u hagree := by
    have hhead := hmeaning host hagree
    have hworld : (p.eval host u).2 = Stm.execAll host p.effects u := Exp.eval_snd_of_isPure hpure _
    have htail := hps.meaning host (hworld ▸ hhead.world)
    rw [flatMap_cons, Stm.execAll_append, map_cons, Exp.evalAll, Exp.evalAll,
      Exp.eval_snd_of_isPure hpure, hsurvives]
    exact ⟨congrArg₂ List.cons hhead.value htail.value, htail.world⟩

/-- A temp that only the operands before may have written is not assigned. -/
theorem assigns_eq_false (hps : Operands s es mid k ps) {t : Temp} (hholder : ¬ t.HolderIn mid k)
    (hassigns : s.Owns t → (Exp.nodesAll es).any (Node.assigns t) = false) :
    ∀ n ∈ (ps.flatMap Staged.effects).flatMap Stm.nodes, n.assigns t = false := by
  intro n hn
  rw [Bool.eq_false_iff]
  intro ht
  obtain ⟨howns, hany⟩ | hin := hps.effects.assigns n hn t ht
  · rw [hassigns howns] at hany
    cases hany
  · exact hholder hin

/-- A value that is held survives whatever the other operands do. -/
theorem cons_held (hp : e.StagedAs s lo mid p) (hps : Operands s es mid k ps)
    (hle : s.tempCount ≤ lo) (hk : mid ≤ k) : Operands s (e :: es) lo (k + 1) (p.held k :: ps) := by
  have hlo : lo ≤ k := Nat.le_trans hp.le hk
  refine cons (hp.effects.held hlo hk hp.source hp.pure_or_touchesMemory) rfl
    (hp.held_meaning (Nat.le_trans hle hlo)) hps hp.le (Nat.le_succ k) fun host u => ?_
  refine Stm.execAll_temps (hps.assigns_eq_false (fun hin => ?_) fun howns => ?_) u
  · exact absurd hin.upper (Nat.lt_irrefl k)
  · exact absurd howns (Session.not_owns_holder (Nat.le_trans hle hlo))

/-- A value that commutes survives operands that do not disturb it. -/
theorem cons_commutes (hp : e.StagedAs s lo mid p) (hps : Operands s es mid k ps)
    (hle : s.tempCount ≤ lo) (hk : mid ≤ k) (hcommutes : p.value.commutes = true)
    (hundisturbed : ∀ e' ∈ es, e.Undisturbed e') : Operands s (e :: es) lo k (p :: ps) := by
  have hchain := hp.chain hcommutes
  refine cons (hp.effects.mono _ (fun _ => id) id (Nat.le_refl lo) hk)
    (Exp.isPure_of_commutes hcommutes) hp.meaning hps hp.le (Nat.le_refl k) fun host u => ?_
  refine Exp.eval_fst_of_commutes hcommutes (fun t ht => ?_) fun hread => ?_
  · refine Stm.execAll_temps (hps.assigns_eq_false (fun hin => ?_) fun howns => ?_) u
    · -- the later operands have holders of their own
      obtain ⟨howns, _⟩ | hin' := hchain.base t ht
      · exact hin.not_owns (Nat.le_trans hle hp.le) howns
      · exact absurd hin.lower (Nat.not_le.mpr hin'.upper)
    · obtain ⟨_, hbase⟩ | hin' := hchain.base t ht
      · rw [Exp.nodesAll_eq, any_flatMap, any_eq_false]
        exact fun e' he' => Bool.eq_false_iff.mp ((hundisturbed e' he').base t hbase)
      · exact absurd howns (hin'.not_owns hle)
  · refine Stm.execAll_memory (fun n hn => ?_) u
    rw [Bool.eq_false_iff]
    intro hm
    have htouches := hps.effects.touches n hn hm
    rw [Exp.nodesAll_eq, any_flatMap, any_eq_true] at htouches
    obtain ⟨e', he', htouches⟩ := htouches
    exact Bool.eq_false_iff.mp ((hundisturbed e' he').memory (hchain.reads hread)) htouches

variable {q : Staged} {l r : Exp}

/-- One more operand in front, protected from the others. -/
theorem cons_protect {a b : Session} (hp : e.StagedAs s lo mid p) (hpure : p.value.isPure = true)
    (hps : Operands s es mid a.tempCount ps) (hle : s.tempCount ≤ lo) (hmid : mid ≤ a.tempCount)
    (hundisturbed : ∀ e' ∈ es, e.Undisturbed e')
    (hq : (p.protect (ps.any Staged.hasEffects)).run a = (q, b)) :
    a.tempCount ≤ b.tempCount ∧ Operands s (e :: es) lo b.tempCount (q :: ps) := by
  unfold Staged.protect at hq
  split at hq
  · obtain ⟨rfl, rfl⟩ := Prod.mk.inj hq
    exact ⟨Nat.le_succ _, cons_held hp hps hle hmid⟩
  · next hkept =>
    obtain ⟨rfl, rfl⟩ := Prod.mk.inj hq
    refine ⟨Nat.le_refl _, ?_⟩
    by_cases hcommutes : p.value.commutes = true
    · exact cons_commutes hp hps hle hmid hcommutes hundisturbed
    · -- nothing runs after the value is computed
      have hnil : ps.flatMap Staged.effects = [] := by
        simpa [Staged.hasEffects, hcommutes] using hkept
      refine cons (hp.effects.mono _ (fun _ => id) id (Nat.le_refl lo) hmid) hpure hp.meaning hps
        hp.le (Nat.le_refl _) fun host u => ?_
      rw [hnil]
      rfl

/-- **Protected operands.** From staged expressions, protection makes operands,
provided that no expression disturbs one before it. -/
theorem of_protectAll {a b : Session} {qs : List Staged} (h : StagedAll s es lo hi ps)
    (hle : s.tempCount ≤ lo) (hhi : hi ≤ a.tempCount) (horderly : es.Pairwise Exp.Undisturbed)
    (hqs : (Staged.protectAll ps).run a = (qs, b)) :
    a.tempCount ≤ b.tempCount ∧ Operands s es lo b.tempCount qs := by
  induction h generalizing qs b with
  | nil lo =>
    obtain ⟨rfl, rfl⟩ := Prod.mk.inj hqs
    exact ⟨Nat.le_refl _, .nil s _ lo _, by simp, fun host w u hagree => ⟨rfl, hagree⟩⟩
  | @cons e es lo mid hi p ps hp hpure htail ih =>
    rw [pairwise_cons] at horderly
    obtain ⟨q, qs', a', b', hqs', hq, hall⟩ := Staged.protectAll_cons p ps a
    rw [hall] at hqs
    obtain ⟨rfl, rfl⟩ := Prod.mk.inj hqs
    obtain ⟨hle₁, hops⟩ := ih (Nat.le_trans hle hp.le) hhi horderly.2 hqs'
    obtain ⟨hle₂, hops⟩ := hops.cons_protect hp hpure hle
      (Nat.le_trans (Nat.le_trans htail.le hhi) hle₁) horderly.1 hq
    exact ⟨Nat.le_trans hle₁ hle₂, hops⟩

/-- **Two operands**, staged and their calls held, the left one protected from the
right one. -/
theorem pair {p₁ p₂ q₁ q₂ : Staged} {a₁ b₁ a₂ b₂ c : Session} (hle : s.tempCount ≤ lo)
    (hl : l.StagedAs s lo a₁.tempCount p₁) (hq₁ : p₁.holdCall.run a₁ = (q₁, b₁))
    (hr : s.tempCount ≤ b₁.tempCount → r.StagedAs s b₁.tempCount a₂.tempCount p₂)
    (hq₂ : p₂.holdCall.run a₂ = (q₂, b₂)) (hundisturbed : l.Undisturbed r)
    (hq : (q₁.protect q₂.hasEffects).run b₂ = (q, c)) :
    lo ≤ c.tempCount ∧ Operands s [l, r] lo c.tempCount [q, q₂] := by
  obtain ⟨hstagedl, hpurel⟩ := hl.holdCall hle hq₁
  have hle₁ := Nat.le_trans hle hstagedl.le
  obtain ⟨hstagedr, hpurer⟩ := (hr hle₁).holdCall hle₁ hq₂
  have hright : Operands s [r] b₁.tempCount b₂.tempCount [q₂] :=
    (of_protectAll (.cons hstagedr hpurer (.nil _)) hle₁ (Nat.le_refl _)
      (pairwise_singleton _ r) rfl).2
  obtain ⟨hle₂, hops⟩ := hright.cons_protect hstagedl hpurel hle hstagedr.le
    (by simpa using hundisturbed)
    (by rw [any_cons, any_nil, Bool.or_false]; exact hq)
  exact ⟨Nat.le_trans hstagedl.le (Nat.le_trans hstagedr.le hle₂), hops⟩

/-- What two operands evaluate to, the one after the other. -/
theorem pair_meaning (h : Operands s [l, r] lo hi [p, q]) {V M : Type} (host : Host V M)
    {w u : World V M} (hagree : Agree s.Owns w u) :
    (p.value.eval host (Stm.execAll host (p.effects ++ q.effects) u)).1 = (l.eval host w).1 ∧
    (q.value.eval host (Stm.execAll host (p.effects ++ q.effects) u)).1
      = (r.eval host (l.eval host w).2).1 ∧
    Agree s.Owns (r.eval host (l.eval host w).2).2
      (Stm.execAll host (p.effects ++ q.effects) u) := by
  have hsame := h.meaning host hagree
  rw [Exp.evalAll_of_isPure h.pure] at hsame
  have heffects : [p, q].flatMap Staged.effects = p.effects ++ q.effects := by simp
  rw [heffects] at hsame
  obtain ⟨hl, hr⟩ := List.cons.inj hsame.value
  exact ⟨hl, (List.cons.inj hr).1, hsame.world⟩

theorem pair_effects (h : Operands s [l, r] lo hi [p, q]) :
    Effects s (l.nodes ++ r.nodes) lo hi (p.effects ++ q.effects) := by
  simpa [Exp.nodesAll] using h.effects

end Operands

namespace Exp.StagedAs

variable {s : Session} {lo mid hi : Nat} {q : Staged}

theorem of_isLeaf (h : e.isLeaf = true) (howned : ∀ t, e.base? = some t → s.Owns t) (lo : Nat) :
    e.StagedAs s lo lo (.ofValue e) := by
  cases e with
  | const n | name l =>
    exact ⟨Nat.le_refl lo, .nil s _ lo lo, rfl, .inl rfl,
      fun _ => ⟨rfl, by simp [Staged.ofValue, base?], id⟩,
      fun host w u hagree => ⟨rfl, hagree⟩⟩
  | temp t =>
    exact ⟨Nat.le_refl lo, .nil s _ lo lo, rfl, .inl rfl,
      fun _ => ⟨rfl, fun t' ht' => .inl ⟨howned t' ht', ht'⟩, id⟩,
      fun host w u hagree => ⟨hagree.temps t (howned t rfl), hagree⟩⟩
  | binop | not | mem | call | eseq => cases h

theorem binop {l r : Exp} (h : Operands s [l, r] lo hi [p, q]) (hle : lo ≤ hi) (op : BinOp) :
    (Exp.binop op l r).StagedAs s lo hi ⟨p.effects ++ q.effects, .binop op p.value q.value⟩ := by
  have hpure : (Exp.binop op p.value q.value).isPure = true := by
    rw [isPure, h.pure p.value (by simp), h.pure q.value (by simp)]
    rfl
  refine ⟨hle, ?_, hpure, .inl hpure, fun hcommutes => (by cases hcommutes), ?_⟩
  · exact h.pair_effects.mono _ (by simp +contextual [nodes]) (by simp +contextual [nodes])
      (Nat.le_refl lo) (Nat.le_refl hi)
  · intro V M host w u hagree
    obtain ⟨hl, hr, hworld⟩ := h.pair_meaning host hagree
    unfold Staged.eval
    rw [eval, eval, eval_snd_of_isPure (h.pure p.value (by simp)),
      eval_snd_of_isPure (h.pure q.value (by simp)), hl, hr]
    exact ⟨rfl, hworld⟩

theorem not (h : e.StagedAs s lo hi p) (hpure : p.value.isPure = true) :
    (Exp.not e).StagedAs s lo hi (p.mapValue .not) := by
  refine ⟨h.le, ?_, hpure, .inl hpure, fun hcommutes => (by cases hcommutes), ?_⟩
  · exact h.effects.mono _ (by simp +contextual [nodes]) (by simp +contextual [nodes])
      (Nat.le_refl lo) (Nat.le_refl hi)
  · intro V M host w u hagree
    have hsame := h.meaning host hagree
    exact ⟨congrArg host.not hsame.value, hsame.world⟩

theorem mem (h : e.StagedAs s lo hi p) (hpure : p.value.isPure = true) :
    (Exp.mem e).StagedAs s lo hi (p.mapValue .mem) := by
  refine ⟨h.le, ?_, hpure, .inl hpure, fun hcommutes => ?_, ?_⟩
  · exact h.effects.mono _ (by simp +contextual [nodes]) (by simp +contextual [nodes])
      (Nat.le_refl lo) (Nat.le_refl hi)
  · have hchain := h.chain hcommutes
    exact ⟨hchain.chain, hchain.base, fun _ => hchain.chain⟩
  · intro V M host w u hagree
    have hsame := h.meaning host hagree
    exact ⟨congrArg₂ host.load hsame.world.memory hsame.value, hsame.world⟩

theorem call {f : Exp} {args : List Exp} (h : Operands s (f :: args) lo hi (p :: ps))
    (hle : lo ≤ hi) :
    (Exp.call f args).StagedAs s lo hi
      ⟨p.effects ++ ps.flatMap Staged.effects, .call p.value (ps.map Staged.value)⟩ := by
  have hpure := forall_mem_cons.mp h.pure
  refine ⟨hle, ?_, ?_, .inr ⟨f, args, rfl⟩, fun hcommutes => (by cases hcommutes), ?_⟩
  · refine h.effects.mono _ ?_ ?_ (Nat.le_refl lo) (Nat.le_refl hi)
    · simp +contextual [nodes, nodesAll]
    · simp +contextual [nodes, nodesAll]
  · rw [isCanonicalSource, hpure.1, Bool.true_and, all_eq_true]
    exact hpure.2
  · intro V M host w u hagree
    have hsame := h.meaning host hagree
    rw [flatMap_cons] at hsame
    have hcall := hsame.world.call host (f.eval host w).1 (evalAll host args (f.eval host w).2).1
    obtain ⟨hf, hargs⟩ := List.cons.inj hsame.value
    unfold Staged.eval
    rw [eval, eval, hf, hargs]
    exact hcall

end Exp.StagedAs

/-! ## The canonical form of a statement -/

/-- The straight statement `stm` **has the canonical form** `c`, which does what
`stm` does. -/
structure Stm.CanonicalAs (s : Session) (stm : Stm) (lo hi : Nat) (c : Stm) : Prop where
  le : lo ≤ hi
  effects : Effects s stm.nodes lo hi [c]
  meaning : ∀ {V M : Type} (host : Host V M) {w u : World V M}, Agree s.Owns w u →
    Agree s.Owns (stm.exec host w) (c.exec host u)

/-- A hidden statement runs before the value is taken. -/
theorem Exp.StagedAs.eseq {mid : Nat} {stm c : Stm} (hstm : stm.CanonicalAs s lo mid c)
    (h : e.StagedAs s mid hi p) (hpure : p.value.isPure = true) :
    (Exp.eseq stm e).StagedAs s lo hi ⟨(if c.isNop then [] else [c]) ++ p.effects, p.value⟩ := by
  have hstms : Effects s stm.nodes lo mid (if c.isNop then [] else [c]) := by
    split
    · exact .nil s _ lo mid
    · exact hstm.effects
  have hexec {V M : Type} (host : Host V M) (u : World V M) :
      Stm.execAll host (if c.isNop then [] else [c]) u = c.exec host u := by
    split
    · next hnop => exact (Stm.exec_of_isNop hnop u).symm
    · rfl
  refine ⟨Nat.le_trans hstm.le h.le, ?_, h.source, .inl hpure, fun hcommutes => ?_, ?_⟩
  · exact (hstms.join h.effects hstm.le h.le).mono _ (by simp +contextual [nodes])
      (by simp +contextual [nodes]) (Nat.le_refl lo) (Nat.le_refl hi)
  · have hchain := h.chain hcommutes
    exact ⟨hchain.chain,
      fun t ht => (hchain.base t ht).imp_right fun hin => hin.mono hstm.le (Nat.le_refl hi),
      hchain.reads⟩
  · intro V M host w u hagree
    unfold Staged.eval
    rw [Stm.execAll_append, hexec]
    exact h.meaning host (hstm.meaning host hagree)

namespace Stm.CanonicalAs

variable {s : Session} {lo mid hi : Nat} {q : Staged} {c c' : Stm}

theorem seq {a b : Stm} (ha : a.CanonicalAs s lo mid c) (hb : b.CanonicalAs s mid hi c') :
    (Stm.seq a b).CanonicalAs s lo hi (seqAll [c, c']) := by
  refine ⟨Nat.le_trans ha.le hb.le, ?_, fun host w u hagree => ?_⟩
  · exact (ha.effects.join hb.effects ha.le hb.le).seqAll.mono _ (by simp +contextual [nodes])
      (by simp +contextual [nodes]) (Nat.le_refl lo) (Nat.le_refl hi)
  · rw [exec_seqAll]
    exact hb.meaning host (ha.meaning host hagree)

/-- A statement that evaluates an expression; nothing is left of a leaf. -/
theorem exp (h : e.StagedAs s lo hi p) : (Stm.exp e).CanonicalAs s lo hi
      (seqAll (p.effects ++ if p.value.isLeaf then [] else [.exp p.value])) := by
  have hlast : Effects s e.nodes lo hi (if p.value.isLeaf then [] else [.exp p.value]) := by
    split
    · exact .nil s _ lo hi
    · exact .exp h.source h.pure_or_touchesMemory
  have hexec {V M : Type} (host : Host V M) (u : World V M) :
      execAll host (if p.value.isLeaf then [] else [.exp p.value]) u = (p.value.eval host u).2 := by
    split
    · next hleaf => exact (Exp.eval_snd_of_isPure (Exp.isPure_of_isLeaf hleaf) u).symm
    · rfl
  refine ⟨h.le, ?_, fun host w u hagree => ?_⟩
  · exact (h.effects.append hlast).seqAll.mono _ (by simp +contextual [nodes])
      (by simp +contextual [nodes]) (Nat.le_refl lo) (Nat.le_refl hi)
  · rw [exec_seqAll, execAll_append, hexec]
    exact (h.meaning host hagree).world

/-- A move into a temp. -/
theorem move_temp (h : e.StagedAs s lo hi p) {t : Temp} (howns : s.Owns t) :
    (Stm.move (.temp t) e).CanonicalAs s lo hi (p.andThen (.move (.temp t))) := by
  refine ⟨h.le, Effects.seqAll (.append ?_ (.move_temp ?_ h.source ?_)), fun host w u hagree => ?_⟩
  · exact h.effects.mono _ (by simp +contextual [nodes]) (by simp +contextual [nodes])
      (Nat.le_refl lo) (Nat.le_refl hi)
  · exact .inl ⟨howns, by simp [nodes, Node.assigns, Exp.assigned?]⟩
  · exact h.pure_or_touchesMemory.imp_right (by simp +contextual [nodes])
  · have hsame := h.meaning host hagree
    rw [Staged.andThen, exec_seqAll, execAll_append]
    show Agree s.Owns ((e.eval host w).2.set t (e.eval host w).1)
      ((p.eval host u).2.set t (p.eval host u).1)
    rw [hsame.value]
    exact hsame.world.set t _

/-- A move into memory. -/
theorem move_mem {address : Exp} (h : Operands s [address, e] lo hi [p, q]) (hle : lo ≤ hi) :
    (Stm.move (.mem address) e).CanonicalAs s lo hi
      (seqAll (p.effects ++ q.effects ++ [.move (.mem p.value) q.value])) := by
  have hpurep : p.value.isPure = true := h.pure p.value (by simp)
  have hpureq : q.value.isPure = true := h.pure q.value (by simp)
  refine ⟨hle, Effects.seqAll (.append ?_ (.move_mem ?_ hpurep hpureq)), fun host w u hagree => ?_⟩
  · exact h.pair_effects.mono _ (by simp +contextual [nodes, Exp.nodes])
      (by simp +contextual [nodes, Exp.nodes]) (Nat.le_refl lo) (Nat.le_refl hi)
  · simp [nodes, Node.touchesMemory, Exp.stored?]
  · obtain ⟨hp, hq, hworld⟩ := h.pair_meaning host hagree
    rw [exec_seqAll, execAll_append]
    show Agree s.Owns (World.store host _ _ _) (World.store host _ _ _)
    rw [Exp.eval_snd_of_isPure hpurep, Exp.eval_snd_of_isPure hpureq, hp, hq]
    exact hworld.store host _ _

/-- A move into a place before which a statement hides. -/
theorem move_eseq {stm : Stm} {dst : Exp} (hstm : stm.CanonicalAs s lo mid c)
    (h : (Stm.move dst e).CanonicalAs s mid hi c') :
    (Stm.move (.eseq stm dst) e).CanonicalAs s lo hi (seqAll [c, c']) := by
  refine ⟨Nat.le_trans hstm.le h.le, ?_, fun host w u hagree => ?_⟩
  · refine (hstm.effects.join h.effects hstm.le h.le).seqAll.mono _ ?_ ?_ (Nat.le_refl lo)
      (Nat.le_refl hi)
    · intro t ht
      simp only [nodes, Exp.nodes, any_append, any_cons] at ht ⊢
      grind [Node.assigns, Exp.assigned?]
    · intro hm
      simp only [nodes, Exp.nodes, any_append, any_cons] at hm ⊢
      grind [Node.touchesMemory, Exp.stored?]
  · rw [exec_seqAll]
    exact h.meaning host (hstm.meaning host hagree)

end Stm.CanonicalAs

/-! ## All trees -/

theorem Node.Disciplined.undisturbed {l r : Exp} {n : Node} (h : n.Disciplined s)
    (hoperands : n.operands = [l, r]) : l.Undisturbed r := by
  have horderly := h.orderly
  rw [hoperands, pairwise_pair] at horderly
  exact horderly

mutual

/-- **Expressions are staged.** -/
theorem Exp.stagedAs (e : Exp) {s a b : Session} (hd : ∀ n ∈ e.nodes, n.Disciplined s)
    (hle : s.tempCount ≤ a.tempCount) {p : Staged} (h : Yields e.stage a p b) :
    e.StagedAs s a.tempCount b.tempCount p := by
  cases e with
  | const | name =>
    obtain ⟨rfl, rfl⟩ := yields_pure.mp h
    exact .of_isLeaf rfl (by simp [Exp.base?]) _
  | temp t =>
    obtain ⟨rfl, rfl⟩ := yields_pure.mp h
    refine .of_isLeaf rfl (fun t' ht' => ?_) _
    exact (hd (.exp (.temp t)) mem_cons_self).owned t' ht'
  | binop op l r =>
    rw [Exp.nodes, Node.forall_mem_parts] at hd
    simp only [Exp.stage, yields_bind, yields_lift] at h
    obtain ⟨p₁, a₁, hl, q₁, b₁, hq₁, p₂, a₂, hr, q₂, b₂, hq₂, h⟩ := h
    obtain ⟨q, c, hq⟩ : ∃ q c, (q₁.protect q₂.hasEffects).run b₂ = (q, c) := ⟨_, _, rfl⟩
    replace h : ((q₁.protect q₂.hasEffects).run b₂).map
        (fun q => ⟨q.effects ++ q₂.effects, .binop op q.value q₂.value⟩) id = (p, b) := h
    rw [hq] at h
    obtain ⟨rfl, rfl⟩ := Prod.mk.inj h
    obtain ⟨hle', hops⟩ := Operands.pair hle (l.stagedAs hd.2.1 hle hl) hq₁
      (fun hle' => r.stagedAs hd.2.2 hle' hr) hq₂ (hd.1.undisturbed rfl) hq
    exact .binop hops hle' op
  | not e =>
    rw [Exp.nodes, forall_mem_cons] at hd
    simp only [Exp.stage, yields_bind, yields_lift, yields_pure] at h
    obtain ⟨p', u, hp', q, b', hq, rfl, rfl⟩ := h
    obtain ⟨hstaged, hpure⟩ := (e.stagedAs hd.2 hle hp').holdCall hle hq
    exact hstaged.not hpure
  | mem address =>
    rw [Exp.nodes, forall_mem_cons] at hd
    simp only [Exp.stage, yields_bind, yields_lift, yields_pure] at h
    obtain ⟨p', u, hp', q, b', hq, rfl, rfl⟩ := h
    obtain ⟨hstaged, hpure⟩ := (address.stagedAs hd.2 hle hp').holdCall hle hq
    exact hstaged.mem hpure
  | call f args =>
    rw [Exp.nodes, Node.forall_mem_parts] at hd
    simp only [Exp.stage, yields_bind, yields_lift] at h
    obtain ⟨p₁, a₁, hf, q₁, b₁, hq₁, ps, b₂, hps, h⟩ := h
    obtain ⟨hstaged, hpure⟩ := (f.stagedAs hd.2.1 hle hf).holdCall hle hq₁
    have hall := StagedAll.cons hstaged hpure
      (Exp.stagedAll args hd.2.2 (Nat.le_trans hle hstaged.le) hps)
    obtain ⟨q, qs, _, c, _, _, hqs⟩ := Staged.protectAll_cons q₁ ps b₂
    rw [Staged.combineCall_run hqs] at h
    obtain ⟨rfl, rfl⟩ := Prod.mk.inj h
    obtain ⟨hle', hops⟩ := Operands.of_protectAll hall hle (Nat.le_refl _) hd.1.orderly hqs
    exact .call hops (Nat.le_trans hall.le hle')
  | eseq stm e =>
    rw [Exp.nodes, Node.forall_mem_parts] at hd
    simp only [Exp.stage, yields_bind, yields_lift, yields_pure] at h
    obtain ⟨c, u, hc, p', v, hp', q, b', hq, rfl, rfl⟩ := h
    have hstm := stm.canonicalAs hd.2.1 (hd.1.straight stm rfl) hle hc
    have hle₁ := Nat.le_trans hle hstm.le
    obtain ⟨hstaged, hpure⟩ := (e.stagedAs hd.2.2 hle₁ hp').holdCall hle₁ hq
    exact .eseq hstm hstaged hpure

theorem Exp.stagedAll (es : List Exp) {s a b : Session}
    (hd : ∀ n ∈ Exp.nodesAll es, n.Disciplined s) (hle : s.tempCount ≤ a.tempCount)
    {ps : List Staged} (h : Yields (Exp.stageAll es) a ps b) :
    StagedAll s es a.tempCount b.tempCount ps := by
  cases es with
  | nil =>
    obtain ⟨rfl, rfl⟩ := yields_pure.mp h
    exact .nil _
  | cons e es =>
    rw [Exp.nodesAll, forall_mem_append] at hd
    simp only [Exp.stageAll, yields_bind, yields_lift, yields_pure] at h
    obtain ⟨p', u, hp', q, b', hq, ps', v, hps', rfl, rfl⟩ := h
    obtain ⟨hstaged, hpure⟩ := (e.stagedAs hd.1 hle hp').holdCall hle hq
    exact .cons hstaged hpure (Exp.stagedAll es hd.2 (Nat.le_trans hle hstaged.le) hps')

/-- A move whose source stages as `e` does is a move of `e`. -/
theorem Exp.moveInto_canonicalAs (dst : Exp) {s a b : Session} {e : Exp} {src : CompileM Staged}
    (hd : ∀ n ∈ dst.nodes, n.Disciplined s)
    (hundisturbed : ∀ address, dst.stored? = some address → address.Undisturbed e)
    (hsrc : ∀ {a b : Session} {p : Staged}, s.tempCount ≤ a.tempCount → Yields src a p b →
      e.StagedAs s a.tempCount b.tempCount p)
    (hle : s.tempCount ≤ a.tempCount) {c : Stm} (h : Yields (dst.moveInto src) a c b) :
    (Stm.move dst e).CanonicalAs s a.tempCount b.tempCount c := by
  cases dst with
  | temp t =>
    simp only [Exp.moveInto, yields_bind, yields_pure] at h
    obtain ⟨p, u, hp, rfl, rfl⟩ := h
    exact .move_temp (hsrc hle hp) ((hd (.exp (.temp t)) mem_cons_self).owned t rfl)
  | mem address =>
    rw [Exp.nodes, forall_mem_cons] at hd
    simp only [Exp.moveInto, yields_bind, yields_lift, yields_pure] at h
    obtain ⟨p₁, a₁, hp₁, q₁, b₁, hq₁, p₂, a₂, hp₂, q₂, b₂, hq₂, q, c, hq, rfl, rfl⟩ := h
    obtain ⟨hle', hops⟩ := Operands.pair hle (address.stagedAs hd.2 hle hp₁) hq₁
      (fun hle' => hsrc hle' hp₂) hq₂ (hundisturbed address rfl) hq
    exact .move_mem hops hle'
  | eseq stm dst =>
    rw [Exp.nodes, Node.forall_mem_parts] at hd
    simp only [Exp.moveInto, yields_bind, yields_pure] at h
    obtain ⟨c₁, u, hc₁, c₂, b', hc₂, rfl, rfl⟩ := h
    have hstm := stm.canonicalAs hd.2.1 (hd.1.straight stm rfl) hle hc₁
    exact .move_eseq hstm
      (dst.moveInto_canonicalAs hd.2.2 hundisturbed hsrc (Nat.le_trans hle hstm.le) hc₂)
  | const | name | binop | not | call => exact absurd h not_yields_throw

/-- **Straight statements have a canonical form.** -/
theorem Stm.canonicalAs (stm : Stm) {s a b : Session} (hd : ∀ n ∈ stm.nodes, n.Disciplined s)
    (hstraight : stm.isStraight = true) (hle : s.tempCount ≤ a.tempCount) {c : Stm}
    (h : Yields stm.canonicalize a c b) :
    stm.CanonicalAs s a.tempCount b.tempCount c := by
  cases stm with
  | move dst src =>
    rw [Stm.nodes, Node.forall_mem_parts] at hd
    rw [Stm.canonicalize_move] at h
    refine dst.moveInto_canonicalAs hd.2.1 (fun address haddress => ?_)
      (fun hle h => src.stagedAs hd.2.2 hle h) hle h
    exact hd.1.undisturbed (by rw [Node.operands, haddress]; rfl)
  | exp e =>
    rw [Stm.nodes, forall_mem_cons] at hd
    simp only [Stm.canonicalize_exp, yields_bind, yields_pure] at h
    obtain ⟨p, u, hp, rfl, rfl⟩ := h
    exact .exp (e.stagedAs hd.2 hle hp)
  | seq a b =>
    rw [Stm.nodes, Node.forall_mem_parts] at hd
    rw [Stm.isStraight, Bool.and_eq_true] at hstraight
    simp only [Stm.canonicalize_seq, yields_bind, yields_pure] at h
    obtain ⟨c₁, u, hc₁, c₂, b', hc₂, rfl, rfl⟩ := h
    have ha := a.canonicalAs hd.2.1 hstraight.1 hle hc₁
    exact .seq ha (b.canonicalAs hd.2.2 hstraight.2 (Nat.le_trans hle ha.le) hc₂)
  | jump | cjump | label => cases hstraight

end

end TreeBackend
