import TreeBackend.Proofs.CanonicalForms

/-!
# The order of events

An **event** is what a tree does to the world around it: a call, an assignment, a
store, a jump, a branch, or a label to land on. `Stm.events` lists the events of a
tree from left to right, operands before the node that needs them, and knows nothing
of what temps and memory hold.

Canonicalization takes a tree apart and puts statements in places of their own. It
adds assignments to holders, and that is all: `Stm.canonicalize_keeps_events` says
that without the holders drawn, the events are those of the tree, in their order.
The label a call is listed with deserves a word. A function may be named after
statements that run before it; these statements become statements of their own, and
the call that is left names its function directly. So the name of a function is looked
for behind such statements (`Exp.callee?`).
-/

namespace TreeBackend

open List Staged

variable {e : Exp} {q : Staged} {later : Bool} {a b : Session}

/-- What a tree does. -/
inductive Event where
  /-- A call of the function with a label, if it is known, with so many arguments. -/
  | call (label? : Option Label) (arity : Nat)
  | assign (t : Temp)
  | store
  | jump (l : Label)
  | branch (rel : RelOp) (target : Label)
  | label (l : Label)
  deriving DecidableEq

/-- The event assigns a holder with a number from `lo` up to `hi`. -/
def Event.holds (lo hi : Nat) : Event → Bool
  | assign ⟨n, .holder⟩ => decide (lo ≤ n) && decide (n < hi)
  | _ => false

namespace Exp

/-- The label that the expression names. -/
def name? : Exp → Option Label
  | name l => some l
  | _ => none

/-- The label that the expression names, if need be after other statements. -/
def callee? : Exp → Option Label
  | name l => some l
  | eseq _ e => e.callee?
  | _ => none

/-- What a move does to its destination. -/
def written : Exp → List Event
  | temp t => [.assign t]
  | mem _ => [.store]
  | eseq _ dst => dst.written
  | _ => []

end Exp

mutual

/-- The **events** of an expression in the order of evaluation. Calls are listed with
the label that `labelOf` finds for their function. -/
def Exp.events (labelOf : Exp → Option Label) : Exp → List Event
  | .const _ | .name _ | .temp _ => []
  | .binop _ l r => l.events labelOf ++ r.events labelOf
  | .not e | .mem e => e.events labelOf
  | .call f args =>
    f.events labelOf ++ (Exp.eventsAll labelOf args ++ [.call (labelOf f) args.length])
  | .eseq s e => s.events labelOf ++ e.events labelOf

/-- The events of expressions, from left to right. -/
def Exp.eventsAll (labelOf : Exp → Option Label) : List Exp → List Event
  | [] => []
  | e :: es => e.events labelOf ++ Exp.eventsAll labelOf es

/-- The **events** of a statement. A move evaluates its destination, then its source. -/
def Stm.events (labelOf : Exp → Option Label) : Stm → List Event
  | .move dst src => dst.events labelOf ++ (src.events labelOf ++ dst.written)
  | .exp e => e.events labelOf
  | .jump l => [.jump l]
  | .cjump rel l r target => l.events labelOf ++ (r.events labelOf ++ [.branch rel target])
  | .label l => [.label l]
  | .seq a b => a.events labelOf ++ b.events labelOf

end

section Events

variable {labelOf : Exp → Option Label}

theorem Stm.events_seqAll (stms : List Stm) :
    (seqAll stms).events labelOf = stms.flatMap (events labelOf) :=
  seqAll_flatMap (fun n => by simp only [events, Exp.events])
    (fun a b => by simp only [events]) stms

/-- A statement that does nothing may as well be left out. -/
theorem Stm.flatMap_events_unless_nop (c : Stm) :
    (if c.isNop then [] else [c]).flatMap (events labelOf) = c.events labelOf := by
  unfold isNop
  split
  · rw [events, Exp.events]; rfl
  · exact flatMap_singleton ..

/-- Nothing happens where a pure expression is evaluated. -/
theorem Exp.events_of_isPure (h : e.isPure = true) : e.events labelOf = [] := by
  induction e using Exp.isPure.induct with
  | case1 | case2 | case3 => rw [events]
  | case4 op l r ihl ihr =>
    rw [isPure, Bool.and_eq_true] at h
    rw [events, ihl h.1, ihr h.2, append_nil]
  | case5 e ih | case6 e ih => rw [events, ih h]
  | case7 | case8 => cases h

/-- Pure expressions do nothing. -/
theorem Exp.eventsAll_of_isPure {es : List Exp} (h : ∀ e ∈ es, e.isPure = true) :
    Exp.eventsAll labelOf es = [] := by
  induction es with
  | nil => rw [eventsAll]
  | cons e es ih =>
    rw [forall_mem_cons] at h
    rw [eventsAll, events_of_isPure h.1, ih h.2, append_nil]

end Events

/-! ## Parts -/

/-- What is kept of a list of events **drops** the assignments to holders with numbers
from `lo` up to `hi`. -/
def Drops (keep : Event → Bool) (lo hi : Nat) : Prop :=
  ∀ n, lo ≤ n → n < hi → keep (.assign ⟨n, .holder⟩) = false

/-- Fewer holders are dropped too. -/
theorem Drops.mono {keep : Event → Bool} {lo hi lo' hi' : Nat} (h : Drops keep lo hi)
    (hlo : lo ≤ lo') (hhi : hi' ≤ hi) : Drops keep lo' hi' :=
  fun n hle hlt => h n (Nat.le_trans hlo hle) (Nat.lt_of_lt_of_le hlt hhi)

namespace Staged

variable {keep : Event → Bool}

/-- The parts **do** what the expression does, as far as it is kept: their effects and
their value have its events, and the value names what the expression names. -/
structure Does (keep : Event → Bool) (p : Staged) (e : Exp) : Prop where
  events : (p.effects.flatMap (Stm.events Exp.name?) ++ p.value.events Exp.name?).filter keep =
    (e.events Exp.callee?).filter keep
  names : p.value.name? = e.callee?

/-- The effects alone do what the expression does, and a pure value is left. -/
structure Performs (keep : Event → Bool) (p : Staged) (e : Exp) : Prop where
  pure : p.value.isPure = true
  events : (p.effects.flatMap (Stm.events Exp.name?)).filter keep =
    (e.events Exp.callee?).filter keep
  names : p.value.name? = e.callee?

variable {p : Staged} {qs : List Staged} {es : List Exp}

theorem Performs.does (h : p.Performs keep e) : p.Does keep e where
  events := by rw [Exp.events_of_isPure h.pure, append_nil, h.events]
  names := h.names

theorem Does.performs (h : p.Does keep e) (hpure : p.value.isPure = true) : p.Performs keep e where
  pure := hpure
  events := by rw [← h.events, Exp.events_of_isPure hpure, append_nil]
  names := h.names

/-- A value that names nothing may be held. -/
theorem Does.held (h : p.Does keep e) (hname : p.value.name? = none) {k : Nat}
    (hkeep : keep (.assign ⟨k, .holder⟩) = false) : (p.held k).Performs keep e where
  pure := rfl
  events := by
    have hmove : (Stm.move (.temp ⟨k, .holder⟩) p.value).events Exp.name? =
        p.value.events Exp.name? ++ [.assign ⟨k, .holder⟩] := by
      rw [Stm.events, Exp.events, Exp.written, nil_append]
    rw [Staged.held, flatMap_append, flatMap_singleton, hmove, ← append_assoc,
      filter_append, h.events, filter_singleton, hkeep]
    exact append_nil _
  names := hname.symm.trans h.names

/-- A value is held only if it does not commute. -/
theorem Performs.protect (h : p.Performs keep e) (hkeep : Drops keep a.tempCount b.tempCount)
    (hq : (p.protect later).run a = (q, b)) : q.Performs keep e := by
  unfold Staged.protect at hq
  split at hq
  · next hheld =>
    obtain ⟨rfl, rfl⟩ := Prod.mk.inj hq
    -- a name commutes, so what is held is something else
    have hname : p.value.name? = none := by
      cases hvalue : p.value with
      | name l => simp [hvalue, Exp.commutes, Exp.isLeaf] at hheld
      | const | temp | binop | not | mem | call | eseq => rfl
    exact h.does.held hname (hkeep _ (Nat.le_refl _) (Nat.lt_succ_self _))
  · obtain ⟨rfl, rfl⟩ := Prod.mk.inj hq
    exact h

/-- Operands are protected one by one. -/
theorem forall₂_performs_protectAll {ps : List Staged} (h : List.Forall₂ (Performs keep) ps es)
    (hkeep : Drops keep a.tempCount b.tempCount) (hqs : (protectAll ps).run a = (qs, b)) :
    List.Forall₂ (Performs keep) qs es := by
  induction h generalizing qs b with
  | nil =>
    obtain ⟨rfl, rfl⟩ := Prod.mk.inj hqs
    exact .nil
  | @cons p e ps es hp _ ih =>
    obtain ⟨q, qs', c, b', hqs', hq, hall⟩ := protectAll_cons p ps a
    rw [hall] at hqs
    obtain ⟨rfl, rfl⟩ := Prod.mk.inj hqs
    -- the operands after `p` draw their holders first
    have hrest := ih (hkeep.mono (Nat.le_refl _) (le_of_protect hq)) hqs'
    exact .cons (hp.protect (hkeep.mono (le_of_protectAll hqs') (Nat.le_refl _)) hq) hrest

/-- What operands do, one after the other. -/
theorem events_of_forall₂ (h : List.Forall₂ (Performs keep) qs es) :
    ((qs.flatMap effects).flatMap (Stm.events Exp.name?)).filter keep =
      (Exp.eventsAll Exp.callee? es).filter keep := by
  induction h with
  | nil => rw [Exp.eventsAll]; rfl
  | cons hq _ ih =>
    rw [flatMap_cons, flatMap_append, filter_append, hq.events, ih, Exp.eventsAll, filter_append]

theorem isPure_of_forall₂ (h : List.Forall₂ (Performs keep) qs es) :
    ∀ v ∈ qs.map value, v.isPure = true := by
  induction h with
  | nil => exact forall_mem_nil _
  | cons hq _ ih => exact forall_mem_cons.mpr ⟨hq.pure, ih⟩

end Staged

section Trees

variable {keep : Event → Bool}

/-- A call is held, so that the effects do all that the expression does. -/
theorem Staged.Does.holdCall {p : Staged} {u : Session} (h : p.Does keep e)
    (hparts : e.HasParts p) (hq : p.holdCall.run u = (q, b))
    (hkeep : Drops keep u.tempCount b.tempCount) : q.Performs keep e := by
  obtain ⟨⟨f, args, hcall⟩, rfl, hcount⟩ | ⟨hne, rfl, rfl⟩ := holdCall_cases hq
  · exact h.held (congrArg Exp.name? hcall) (hkeep _ (Nat.le_refl _) (hcount ▸ Nat.lt_succ_self _))
  · exact h.performs (Exp.isPure_of_isCanonicalSource hparts.source hne)

theorem Exp.performs_of {e : Exp} {a b : Session} {q : Staged}
    (hdoes : ∀ {a b : Session} {p : Staged}, Yields e.stage a p b →
      Drops keep a.tempCount b.tempCount → p.Does keep e)
    (h : Yields e.stagePure a q b) (hkeep : Drops keep a.tempCount b.tempCount) :
    q.Performs keep e := by
  obtain ⟨p, u, hp, hq⟩ := yields_stagePure.mp h
  exact (hdoes hp (hkeep.mono (Nat.le_refl _) (le_of_holdCall hq))).holdCall (e.hasParts hp) hq
    (hkeep.mono (Exp.le_of_stage hp) (Nat.le_refl _))

/-- Two operands, the first of which is protected. -/
theorem Staged.Performs.pair {p q' : Staged} {l r : Exp} (hp : p.Performs keep l)
    (hq : q.Performs keep r) (hkeep : Drops keep a.tempCount b.tempCount)
    (hrun : (p.protect later).run a = (q', b)) :
    q'.value.isPure = true ∧ q.value.isPure = true ∧
      ((q'.effects ++ q.effects).flatMap (Stm.events Exp.name?)).filter keep =
        (l.events Exp.callee? ++ r.events Exp.callee?).filter keep := by
  have hp' := hp.protect hkeep hrun
  refine ⟨hp'.pure, hq.pure, ?_⟩
  rw [flatMap_append, filter_append, hp'.events, hq.events, filter_append]

theorem Exp.pair_of {l r : Exp} {a u v b : Session} {q₁ q₂ q : Staged} {later : Bool}
    (hdoes : ∀ {a b : Session} {p : Staged}, Yields l.stage a p b →
      Drops keep a.tempCount b.tempCount → p.Does keep l)
    (hdoes' : ∀ {a b : Session} {p : Staged}, Yields r.stage a p b →
      Drops keep a.tempCount b.tempCount → p.Does keep r)
    (hl : Yields l.stagePure a q₁ u) (hr : Yields r.stagePure u q₂ v)
    (hq : (q₁.protect later).run v = (q, b)) (hkeep : Drops keep a.tempCount b.tempCount) :
    q.value.isPure = true ∧ q₂.value.isPure = true ∧
      ((q.effects ++ q₂.effects).flatMap (Stm.events Exp.name?)).filter keep =
        (l.events Exp.callee? ++ r.events Exp.callee?).filter keep := by
  have hle₁ := Exp.le_of_stagePure hl
  have hle₂ := Exp.le_of_stagePure hr
  have hle₃ := le_of_protect hq
  have hl' := Exp.performs_of hdoes hl (hkeep.mono (Nat.le_refl _) (by omega))
  have hr' := Exp.performs_of hdoes' hr (hkeep.mono hle₁ hle₃)
  exact hl'.pair hr' (hkeep.mono (by omega) (Nat.le_refl _)) hq

mutual

/-- **What an expression does** is done by its parts. -/
theorem Exp.does (e : Exp) {a b : Session} {p : Staged} (h : Yields e.stage a p b)
    (hkeep : Drops keep a.tempCount b.tempCount) : p.Does keep e := by
  cases e with
  | const | name | temp =>
    obtain ⟨rfl, rfl⟩ := yields_pure.mp h
    exact ⟨by simp [Staged.ofValue, Exp.events], rfl⟩
  | binop op l r =>
    obtain ⟨q₁, u, q₂, v, q, hl, hr, hq, rfl⟩ := Exp.yields_stage_binop.mp h
    obtain ⟨hpure, hpure₂, hevents⟩ :=
      Exp.pair_of (fun h => l.does h) (fun h => r.does h) hl hr hq hkeep
    have hvalue : (Exp.binop op q.value q₂.value).events Exp.name? = [] := by
      rw [Exp.events, Exp.events_of_isPure hpure, Exp.events_of_isPure hpure₂]
      rfl
    refine ⟨?_, rfl⟩
    rw [hvalue, append_nil, hevents, Exp.events]
  | not e =>
    obtain ⟨q, hq, rfl⟩ := Exp.yields_stage_not.mp h
    have hq' := Exp.performs_of (fun h => e.does h) hq hkeep
    exact ⟨hq'.does.events, rfl⟩
  | mem e =>
    obtain ⟨q, hq, rfl⟩ := Exp.yields_stage_mem.mp h
    have hq' := Exp.performs_of (fun h => e.does h) hq hkeep
    exact ⟨hq'.does.events, rfl⟩
  | call f args =>
    obtain ⟨q₁, u, ps, v, q, qs, hf, hargs, hqs, rfl⟩ := Exp.yields_stage_call.mp h
    have hle₁ := Exp.le_of_stagePure hf
    have hle₂ := Exp.le_of_stageAll hargs
    have hle₃ := le_of_protectAll hqs
    have hf' := Exp.performs_of (fun h => f.does h) hf (hkeep.mono (Nat.le_refl _) (by omega))
    have hargs' := Exp.doesAll args hargs (hkeep.mono hle₁ hle₃)
    have hall := forall₂_performs_protectAll (.cons hf' hargs')
      (hkeep.mono (by omega) (Nat.le_refl _)) hqs
    obtain _ | ⟨hq, hrest⟩ := hall
    -- of the value only the call itself is left, by the name of its function
    have hvalue : (Exp.call q.value (qs.map Staged.value)).events Exp.name? =
        [.call f.callee? args.length] := by
      rw [Exp.events, Exp.events_of_isPure hq.pure,
        Exp.eventsAll_of_isPure (isPure_of_forall₂ hrest), hq.names, length_map,
        hrest.length_eq]
      rfl
    refine ⟨?_, rfl⟩
    rw [hvalue, Exp.events]
    simp only [flatMap_append, filter_append, hq.events, events_of_forall₂ hrest, append_assoc]
  | eseq s e =>
    obtain ⟨c, u, q, hc, hq, rfl⟩ := Exp.yields_stage_eseq.mp h
    have hle₁ := Stm.le_of_canonicalize hc
    have hle₂ := Exp.le_of_stagePure hq
    have hs := s.filter_events hc (hkeep.mono (Nat.le_refl _) hle₂)
    have hq' := Exp.performs_of (fun h => e.does h) hq (hkeep.mono hle₁ (Nat.le_refl _))
    refine ⟨?_, hq'.names⟩
    rw [Exp.events, flatMap_append, Stm.flatMap_events_unless_nop, append_assoc,
      filter_append, hs, hq'.does.events, filter_append]

/-- The operands of a call do what they do, one after the other. -/
theorem Exp.doesAll (es : List Exp) {a b : Session} {ps : List Staged}
    (h : Yields (Exp.stageAll es) a ps b) (hkeep : Drops keep a.tempCount b.tempCount) :
    List.Forall₂ (Staged.Performs keep) ps es := by
  cases es with
  | nil =>
    obtain ⟨rfl, rfl⟩ := yields_pure.mp h
    exact .nil
  | cons e es =>
    obtain ⟨q, u, qs, hq, hqs, rfl⟩ := Exp.yields_stageAll_cons.mp h
    have hle₁ := Exp.le_of_stagePure hq
    have hle₂ := Exp.le_of_stageAll hqs
    exact .cons (Exp.performs_of (fun h => e.does h) hq (hkeep.mono (Nat.le_refl _) hle₂))
      (Exp.doesAll es hqs (hkeep.mono hle₁ (Nat.le_refl _)))

/-- **A move does its destination first**, then its source, then itself. -/
theorem Exp.filter_events_moveInto (dst : Exp) {a b : Session} {e : Exp} {src : CompileM Staged}
    (hgrows : Growing id src)
    (hparts : ∀ {a b : Session} {p : Staged}, Yields src a p b → e.HasParts p)
    (hdoes : ∀ {a b : Session} {p : Staged}, Yields src a p b →
      Drops keep a.tempCount b.tempCount → p.Does keep e) {c : Stm}
    (h : Yields (dst.moveInto src) a c b) (hkeep : Drops keep a.tempCount b.tempCount) :
    (c.events Exp.name?).filter keep = ((Stm.move dst e).events Exp.callee?).filter keep := by
  cases dst with
  | temp t =>
    simp only [Exp.moveInto, yields_bind, yields_pure] at h
    obtain ⟨p, u, hp, rfl, rfl⟩ := h
    rw [Staged.andThen, Stm.events_seqAll, flatMap_append, flatMap_singleton, Stm.events,
      Stm.events, Exp.events, Exp.events, Exp.written, nil_append, nil_append,
      ← append_assoc, filter_append, (hdoes hp hkeep).events, filter_append]
  | mem address =>
    obtain ⟨q₁, u, p₂, v, q₂, v', q, hq₁, hp₂, hq₂, hq, rfl⟩ := Exp.yields_moveInto_mem.mp h
    have hle₁ := Exp.le_of_stagePure hq₁
    have hle₂ : u.tempCount ≤ v.tempCount := (hgrows.continues hp₂).le
    have hle₃ := le_of_holdCall hq₂
    have hle₄ := le_of_protect hq
    have haddress := Exp.performs_of (fun h => address.does h) hq₁
      (hkeep.mono (Nat.le_refl _) (by omega))
    have hvalue := (hdoes hp₂ (hkeep.mono hle₁ (by omega))).holdCall (hparts hp₂) hq₂
      (hkeep.mono (by omega) hle₄)
    obtain ⟨hpure, hpure₂, hevents⟩ :=
      haddress.pair hvalue (hkeep.mono (by omega) (Nat.le_refl _)) hq
    have hmove : (Stm.move (.mem q.value) q₂.value).events Exp.name? = [.store] := by
      rw [Stm.events, Exp.events, Exp.events_of_isPure hpure, Exp.events_of_isPure hpure₂]
      rfl
    rw [Stm.events_seqAll, flatMap_append, flatMap_singleton, hmove, filter_append,
      hevents, ← filter_append, Stm.events, Exp.events, Exp.written, append_assoc]
  | eseq s dst =>
    simp only [Exp.moveInto, yields_bind, yields_pure] at h
    obtain ⟨c₁, u, hc₁, c₂, b', hc₂, rfl, rfl⟩ := h
    have hle₁ := Stm.le_of_canonicalize hc₁
    have hle₂ : u.tempCount ≤ b'.tempCount := ((dst.growing_moveInto hgrows).continues hc₂).le
    have hs := s.filter_events hc₁ (hkeep.mono (Nat.le_refl _) hle₂)
    -- what is written is not changed by the statements before the destination
    have hdst := dst.filter_events_moveInto hgrows hparts hdoes hc₂
      (hkeep.mono hle₁ (Nat.le_refl _))
    rw [Stm.events_seqAll, flatMap_cons, flatMap_singleton, filter_append, hs, hdst,
      ← filter_append, Stm.events, Stm.events, Exp.events, Exp.written, append_assoc]
  | const | name | binop | not | call => exact absurd h not_yields_throw

/-- **What a statement does** is done by its canonical form. -/
theorem Stm.filter_events (s : Stm) {a b : Session} {c : Stm} (h : Yields s.canonicalize a c b)
    (hkeep : Drops keep a.tempCount b.tempCount) :
    (c.events Exp.name?).filter keep = (s.events Exp.callee?).filter keep := by
  cases s with
  | move dst src =>
    rw [Stm.canonicalize_move] at h
    exact dst.filter_events_moveInto src.growing_stage (fun h => src.hasParts h)
      (fun h => src.does h) h hkeep
  | exp e =>
    obtain ⟨p, hp, rfl⟩ := Stm.yields_canonicalize_exp.mp h
    have hleaf : (if p.value.isLeaf then [] else [Stm.exp p.value]).flatMap (Stm.events Exp.name?) =
        p.value.events Exp.name? := by
      split
      · next hleaf => rw [Exp.events_of_isPure (Exp.isPure_of_isLeaf hleaf)]; rfl
      · rw [flatMap_singleton, Stm.events]
    rw [Stm.events_seqAll, flatMap_append, hleaf, (e.does hp hkeep).events, Stm.events]
  | jump | label =>
    rw [Stm.canonicalize, yields_pure] at h
    obtain ⟨rfl, rfl⟩ := h
    rw [Stm.events, Stm.events]
  | cjump rel l r target =>
    obtain ⟨q₁, u, q₂, v, q, hl, hr, hq, rfl⟩ := Stm.yields_canonicalize_cjump.mp h
    obtain ⟨hpure, hpure₂, hevents⟩ :=
      Exp.pair_of (fun h => l.does h) (fun h => r.does h) hl hr hq hkeep
    have hbranch : (Stm.cjump rel q.value q₂.value target).events Exp.name? =
        [.branch rel target] := by
      rw [Stm.events, Exp.events_of_isPure hpure, Exp.events_of_isPure hpure₂]
      rfl
    rw [Stm.events_seqAll, flatMap_append, flatMap_singleton, hbranch,
      filter_append, hevents, ← filter_append, Stm.events, append_assoc]
  | seq s s' =>
    obtain ⟨c₁, u, c₂, hc₁, hc₂, rfl⟩ := Stm.yields_canonicalize_seq.mp h
    have hle₁ := Stm.le_of_canonicalize hc₁
    have hle₂ := Stm.le_of_canonicalize hc₂
    rw [Stm.events_seqAll, flatMap_cons, flatMap_singleton, filter_append,
      s.filter_events hc₁ (hkeep.mono (Nat.le_refl _) hle₂),
      s'.filter_events hc₂ (hkeep.mono hle₁ (Nat.le_refl _)), Stm.events, filter_append]

end

end Trees

/-! ## Names of functions -/

section Names

/-- The functions of all calls among the nodes get the same label. -/
def AgreeOn (labelOf labelOf' : Exp → Option Label) (ns : List Node) : Prop :=
  ∀ f args, .exp (.call f args) ∈ ns → labelOf f = labelOf' f

variable {labelOf labelOf' : Exp → Option Label} {n : Node} {ns ms : List Node}

theorem AgreeOn.tail (h : AgreeOn labelOf labelOf' (n :: ns)) : AgreeOn labelOf labelOf' ns :=
  fun f args hf => h f args (mem_cons_of_mem _ hf)

theorem AgreeOn.parts (h : AgreeOn labelOf labelOf' (ns ++ ms)) :
    AgreeOn labelOf labelOf' ns ∧ AgreeOn labelOf labelOf' ms :=
  ⟨fun f args hf => h f args (mem_append_left _ hf),
    fun f args hf => h f args (mem_append_right _ hf)⟩

mutual

/-- The labels of functions matter only where there are calls. -/
theorem Exp.events_congr (e : Exp) (h : AgreeOn labelOf labelOf' e.nodes) :
    e.events labelOf = e.events labelOf' := by
  cases e with
  | const | name | temp => rw [Exp.events, Exp.events]
  | not e | mem e => rw [Exp.events, Exp.events, e.events_congr h.tail]
  | call f args =>
    rw [Exp.events, Exp.events, h f args mem_cons_self, f.events_congr h.tail.parts.1,
      Exp.eventsAll_congr args h.tail.parts.2]
  | binop _ a b | eseq a b =>
    rw [Exp.events, Exp.events, a.events_congr h.tail.parts.1, b.events_congr h.tail.parts.2]

theorem Exp.eventsAll_congr (es : List Exp) (h : AgreeOn labelOf labelOf' (Exp.nodesAll es)) :
    Exp.eventsAll labelOf es = Exp.eventsAll labelOf' es := by
  cases es with
  | nil => rw [Exp.eventsAll, Exp.eventsAll]
  | cons e es =>
    rw [Exp.eventsAll, Exp.eventsAll, e.events_congr h.parts.1, Exp.eventsAll_congr es h.parts.2]

theorem Stm.events_congr (s : Stm) (h : AgreeOn labelOf labelOf' s.nodes) :
    s.events labelOf = s.events labelOf' := by
  cases s with
  | exp e => rw [Stm.events, Stm.events, e.events_congr h.tail]
  | jump | label => rw [Stm.events, Stm.events]
  | move a b | cjump _ a b | seq a b =>
    rw [Stm.events, Stm.events, a.events_congr h.tail.parts.1, b.events_congr h.tail.parts.2]

end

end Names

namespace Stm

/-- The events without those of holders. -/
theorem drops_holds (lo hi : Nat) : Drops (fun ev => !ev.holds lo hi) lo hi := by
  intro n hle hlt
  simp [Event.holds, hle, hlt]

/-- A session does not own what is drawn after it. -/
theorem holds_eq_false {ev : Event} (h : ∀ t, ev = .assign t → a.Owns t) (hi : Nat) :
    ev.holds a.tempCount hi = false := by
  unfold Event.holds
  split
  · next n =>
    have hlt : n < a.tempCount := h _ rfl
    simp [Nat.not_le.mpr hlt]
  · rfl

/-- **Canonicalization keeps all events in their order.** Without the assignments to
the holders that were drawn, the canonical form has the events of the tree. A call of
the tree is listed with the label that is left of its function when the statements
before the name have become statements of their own; if all functions that are named
are named directly, that is the label of the function as it stands. -/
theorem canonicalize_keeps_events (s : Stm) {a b : Session} {c : Stm}
    (h : Yields s.canonicalize a c b)
    (howns : ∀ t, .assign t ∈ s.events Exp.callee? → a.Owns t) :
    (c.events Exp.name?).filter (fun ev => !ev.holds a.tempCount b.tempCount) =
        s.events Exp.callee? ∧
      ((∀ f args, .exp (.call f args) ∈ s.nodes → f.name? = f.callee?) →
        (c.events Exp.name?).filter (fun ev => !ev.holds a.tempCount b.tempCount) =
          s.events Exp.name?) := by
  have hevents : (c.events Exp.name?).filter (fun ev => !ev.holds a.tempCount b.tempCount) =
      s.events Exp.callee? := by
    rw [s.filter_events h (drops_holds _ _), filter_eq_self]
    intro ev hev
    rw [holds_eq_false fun t ht => howns t (ht ▸ hev)]
    rfl
  exact ⟨hevents, fun hnames => hevents.trans (s.events_congr hnames).symm⟩

/-- A store whose address is a call, whose argument runs statements first; the value is
a call whose function is named after a branch. -/
def tangled : Stm := .move (.mem (.call (.name ⟨"f"⟩) [.eseq (.seq (.label ⟨"again"⟩)
      (.move (.temp ⟨7, .plain "x"⟩) (.const 1))) (.temp ⟨7, .plain "x"⟩)]))
    (.call (.eseq (.cjump .lt (.temp ⟨7, .plain "x"⟩) (.const 9) ⟨"again"⟩) (.name ⟨"g"⟩))
      [.call (.name ⟨"h"⟩) []])

/-- Its seven events are there in their order, and assignments to holders between them. -/
theorem canonicalize_keeps_events_tangled : ∃ c b,
    Yields tangled.canonicalize (.ofTemps ["x"]) c b ∧
    (∀ t, .assign t ∈ tangled.events Exp.callee? → (Session.ofTemps ["x"]).Owns t) ∧
    (c.events Exp.name?).filter (fun ev => !ev.holds 8 b.tempCount) =
      [.label ⟨"again"⟩, .assign ⟨7, .plain "x"⟩, .call (some ⟨"f"⟩) 1, .branch .lt ⟨"again"⟩,
        .call (some ⟨"h"⟩) 0, .call (some ⟨"g"⟩) 1, .store] := by
  obtain ⟨c, b, h⟩ : ∃ c b, Yields tangled.canonicalize (.ofTemps ["x"]) c b :=
    exists_yields_of_isOk (by decide +kernel)
  have hevents : tangled.events Exp.callee? =
      [.label ⟨"again"⟩, .assign ⟨7, .plain "x"⟩, .call (some ⟨"f"⟩) 1, .branch .lt ⟨"again"⟩,
        .call (some ⟨"h"⟩) 0, .call (some ⟨"g"⟩) 1, .store] := by
    decide
  have howns : ∀ t, .assign t ∈ tangled.events Exp.callee? → (Session.ofTemps ["x"]).Owns t := by
    intro t ht
    obtain rfl : t = ⟨7, .plain "x"⟩ := by simpa [hevents] using ht
    decide
  exact ⟨c, b, h, howns, hevents ▸ (canonicalize_keeps_events tangled h howns).1⟩

/-- A call whose function is named after an assignment. -/
def preparedCall : Stm :=
  .exp (.call (.eseq (.move (.temp ⟨7, .plain "x"⟩) (.const 1)) (.name ⟨"f"⟩)) [])

/-- The function of the call is no name, and that of the call in the canonical form is:
with the labels of functions as they stand, the two lists differ. -/
theorem events_ne_preparedCall : ∃ c b, Yields preparedCall.canonicalize (.ofTemps ["x"]) c b ∧
    (∀ t, .assign t ∈ preparedCall.events Exp.name? → (Session.ofTemps ["x"]).Owns t) ∧
    (c.events Exp.name?).filter (fun ev => !ev.holds 8 b.tempCount) ≠
      preparedCall.events Exp.name? := by
  have h : Yields preparedCall.canonicalize (.ofTemps ["x"])
      (.seq (.move (.temp ⟨7, .plain "x"⟩) (.const 1)) (.exp (.call (.name ⟨"f"⟩) [])))
      (.ofTemps ["x"]) := by
    rw [preparedCall, canonicalize_exp, Exp.stage, Exp.stage, canonicalize_move]
    rfl
  refine ⟨_, _, h, ?_, by decide⟩
  intro t ht
  obtain rfl : t = ⟨7, .plain "x"⟩ := by
    simpa [preparedCall, events, Exp.events, Exp.eventsAll, Exp.written] using ht
  decide

end Stm

end TreeBackend
