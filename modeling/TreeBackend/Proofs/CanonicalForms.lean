import TreeBackend.Proofs.CodeRuns
import TreeBackend.Proofs.GrowingComputations

/-!
# What canonical forms look like

Three facts about canonicalization that hold for every tree, whatever it reads,
writes or hides: its result is in normal form (`Stm.IsNormal`), it places the
labels of the tree in the order of the tree (`Stm.hasForm`), and the destinations
of the moves in the tree decide whether there is a result
(`Stm.canonicalize_decided`).
-/

namespace TreeBackend

open List Staged

variable {s : Stm} {ps : List Staged}

/-! ## Canonicalization, constructor by constructor -/

section Steps

variable {a b : Session} {p : Staged} {c : Stm}

/-- A value without calls: the call that is left is held. -/
theorem Exp.yields_stagePure {e : Exp} {q : Staged} :
    Yields e.stagePure a q b ↔ ∃ p u, Yields e.stage a p u ∧ p.holdCall.run u = (q, b) := by
  simp only [Exp.stagePure, yields_bind, yields_lift]

/-- The first operand is protected from the effects of the second. -/
theorem Exp.yields_stage_binop {op : BinOp} {l r : Exp} :
    Yields (Exp.binop op l r).stage a p b ↔ ∃ q₁ u q₂ v q, Yields l.stagePure a q₁ u ∧
      Yields r.stagePure u q₂ v ∧ (q₁.protect q₂.hasEffects).run v = (q, b) ∧
      ⟨q.effects ++ q₂.effects, .binop op q.value q₂.value⟩ = p := by
  have hcombine : ∀ {q₁ q₂ : Staged} {v : Session}, (q₁.combine (.binop op) q₂).run v = (p, b) ↔
      ∃ q, (q₁.protect q₂.hasEffects).run v = (q, b) ∧
        ⟨q.effects ++ q₂.effects, .binop op q.value q₂.value⟩ = p := by
    intro q₁ q₂ v
    obtain ⟨q, u, hq⟩ : ∃ q u, (q₁.protect q₂.hasEffects).run v = (q, u) := ⟨_, _, rfl⟩
    show ((q₁.protect q₂.hasEffects).run v).map
        (fun q => ⟨q.effects ++ q₂.effects, .binop op q.value q₂.value⟩) id = (p, b) ↔ _
    rw [hq]
    constructor
    · intro h
      obtain ⟨rfl, rfl⟩ := Prod.mk.inj h
      exact ⟨q, rfl, rfl⟩
    · rintro ⟨q', h, rfl⟩
      obtain ⟨rfl, rfl⟩ := Prod.mk.inj h
      rfl
  simp only [Exp.stage, Exp.yields_stagePure, yields_bind, yields_lift, hcombine]
  constructor
  · rintro ⟨p₁, a₁, hl, q₁, b₁, hq₁, p₂, a₂, hr, q₂, b₂, hq₂, q, hq, rfl⟩
    exact ⟨q₁, b₁, q₂, b₂, q, ⟨p₁, a₁, hl, hq₁⟩, ⟨p₂, a₂, hr, hq₂⟩, hq, rfl⟩
  · rintro ⟨q₁, b₁, q₂, b₂, q, ⟨p₁, a₁, hl, hq₁⟩, ⟨p₂, a₂, hr, hq₂⟩, hq, rfl⟩
    exact ⟨p₁, a₁, hl, q₁, b₁, hq₁, p₂, a₂, hr, q₂, b₂, hq₂, q, hq, rfl⟩

theorem Exp.yields_stage_not {e : Exp} :
    Yields (Exp.not e).stage a p b ↔ ∃ q, Yields e.stagePure a q b ∧ q.mapValue .not = p := by
  simp only [Exp.stage, Exp.yields_stagePure, yields_bind, yields_lift, yields_pure]
  grind

theorem Exp.yields_stage_mem {e : Exp} :
    Yields (Exp.mem e).stage a p b ↔ ∃ q, Yields e.stagePure a q b ∧ q.mapValue .mem = p := by
  simp only [Exp.stage, Exp.yields_stagePure, yields_bind, yields_lift, yields_pure]
  grind

/-- The function and the arguments are protected from one another. -/
theorem Exp.yields_stage_call {f : Exp} {args : List Exp} :
    Yields (Exp.call f args).stage a p b ↔ ∃ q₁ u ps v q qs, Yields f.stagePure a q₁ u ∧
      Yields (Exp.stageAll args) u ps v ∧ (Staged.protectAll (q₁ :: ps)).run v = (q :: qs, b) ∧
      ⟨q.effects ++ qs.flatMap Staged.effects, .call q.value (qs.map Staged.value)⟩ = p := by
  have hcombine : ∀ {q₁ : Staged} {ps : List Staged} {v : Session},
      (q₁.combineCall ps).run v = (p, b) ↔
      ∃ q qs, (Staged.protectAll (q₁ :: ps)).run v = (q :: qs, b) ∧
        ⟨q.effects ++ qs.flatMap Staged.effects, .call q.value (qs.map Staged.value)⟩ = p := by
    intro q₁ ps v
    obtain ⟨q, qs, _, b', _, _, hall⟩ := protectAll_cons q₁ ps v
    rw [combineCall_run hall, hall]
    constructor
    · intro h
      obtain ⟨rfl, rfl⟩ := Prod.mk.inj h
      exact ⟨q, qs, rfl, rfl⟩
    · rintro ⟨q', qs', h, rfl⟩
      obtain ⟨⟨rfl, rfl⟩, rfl⟩ := Prod.mk.inj h |>.imp_left List.cons.inj
      rfl
  simp only [Exp.stage, Exp.yields_stagePure, yields_bind, yields_lift, hcombine]
  constructor
  · rintro ⟨p₁, a₁, hf, q₁, b₁, hq₁, ps, b₂, hps, q, qs, hqs, rfl⟩
    exact ⟨q₁, b₁, ps, b₂, q, qs, ⟨p₁, a₁, hf, hq₁⟩, hps, hqs, rfl⟩
  · rintro ⟨q₁, b₁, ps, b₂, q, qs, ⟨p₁, a₁, hf, hq₁⟩, hps, hqs, rfl⟩
    exact ⟨p₁, a₁, hf, q₁, b₁, hq₁, ps, b₂, hps, q, qs, hqs, rfl⟩

/-- The statement becomes an effect, unless it does nothing. -/
theorem Exp.yields_stage_eseq {e : Exp} :
    Yields (Exp.eseq s e).stage a p b ↔ ∃ c u q, Yields s.canonicalize a c u ∧
      Yields e.stagePure u q b ∧ ⟨(if c.isNop then [] else [c]) ++ q.effects, q.value⟩ = p := by
  simp only [Exp.stage, Exp.yields_stagePure, yields_bind, yields_lift, yields_pure]
  grind

/-- Operands are staged from left to right. -/
theorem Exp.yields_stageAll_cons {e : Exp} {es : List Exp} :
    Yields (Exp.stageAll (e :: es)) a ps b ↔ ∃ q u qs, Yields e.stagePure a q u ∧
      Yields (Exp.stageAll es) u qs b ∧ q :: qs = ps := by
  simp only [Exp.stageAll, Exp.yields_stagePure, yields_bind, yields_lift, yields_pure]
  grind

/-- The address comes first, and is protected from the source. -/
theorem Exp.yields_moveInto_mem {address : Exp} {src : CompileM Staged} :
    Yields ((Exp.mem address).moveInto src) a c b ↔ ∃ q₁ u p₂ v q₂ v' q,
      Yields address.stagePure a q₁ u ∧ Yields src u p₂ v ∧ p₂.holdCall.run v = (q₂, v') ∧
      (q₁.protect q₂.hasEffects).run v' = (q, b) ∧
      .seqAll (q.effects ++ q₂.effects ++ [.move (.mem q.value) q₂.value]) = c := by
  simp only [Exp.moveInto, Exp.yields_stagePure, yields_bind, yields_lift, yields_pure]
  grind

/-- A branch is made of two operands, like an operator. -/
theorem Stm.yields_canonicalize_cjump {rel : RelOp} {l r : Exp} {target : Label} :
    Yields (Stm.cjump rel l r target).canonicalize a c b ↔ ∃ q₁ u q₂ v q,
      Yields l.stagePure a q₁ u ∧ Yields r.stagePure u q₂ v ∧
      (q₁.protect q₂.hasEffects).run v = (q, b) ∧
      .seqAll (q.effects ++ q₂.effects ++ [.cjump rel q.value q₂.value target]) = c := by
  simp only [Stm.canonicalize_cjump, yields_bind, yields_lift, yields_pure]
  grind

/-- A value that nobody needs is left out. -/
theorem Stm.yields_canonicalize_exp {e : Exp} :
    Yields (Stm.exp e).canonicalize a c b ↔ ∃ p, Yields e.stage a p b ∧
      .seqAll (p.effects ++ if p.value.isLeaf then [] else [.exp p.value]) = c := by
  simp only [Stm.canonicalize_exp, yields_bind, yields_pure]
  grind

/-- Statements are made canonical one after the other. -/
theorem Stm.yields_canonicalize_seq {s' : Stm} :
    Yields (Stm.seq s s').canonicalize a c b ↔ ∃ c₁ u c₂, Yields s.canonicalize a c₁ u ∧
      Yields s'.canonicalize u c₂ b ∧ .seqAll [c₁, c₂] = c := by
  simp only [Stm.canonicalize_seq, yields_bind, yields_pure]
  grind

end Steps

/-! ## Pure expressions -/

variable {e : Exp} {a : Session}

/-- There is no call to hold. -/
theorem Staged.holdCall_ofValue (h : e.isPure = true) (a : Session) :
    (Staged.ofValue e).holdCall.run a = (.ofValue e, a) := by
  cases e with
  | call => cases h
  | const | name | temp | binop | not | mem | eseq => rfl

theorem Exp.stagePure_of_stage (h : e.isPure = true) (hstage : Yields e.stage a (.ofValue e) a) :
    Yields e.stagePure a (.ofValue e) a :=
  yields_stagePure.mpr ⟨_, a, hstage, holdCall_ofValue h a⟩

/-- **A pure expression is its own value**, and nothing is drawn to find that out. -/
theorem Exp.stage_of_isPure (h : e.isPure = true) (a : Session) :
    Yields e.stage a (.ofValue e) a := by
  induction e using Exp.isPure.induct with
  | case1 | case2 | case3 => rfl
  | case4 op l r ihl ihr =>
    rw [isPure, Bool.and_eq_true] at h
    exact yields_stage_binop.mpr ⟨_, a, _, a, _, stagePure_of_stage h.1 (ihl h.1),
      stagePure_of_stage h.2 (ihr h.2), rfl, rfl⟩
  | case5 e ih => exact yields_stage_not.mpr ⟨_, stagePure_of_stage (e := e) h (ih h), rfl⟩
  | case6 e ih => exact yields_stage_mem.mpr ⟨_, stagePure_of_stage (e := e) h (ih h), rfl⟩
  | case7 | case8 => cases h

/-- **What is pure is its own value**, and draws nothing. -/
theorem Exp.stagePure_of_isPure (h : e.isPure = true) (a : Session) :
    Yields e.stagePure a (.ofValue e) a :=
  stagePure_of_stage h (stage_of_isPure h a)

/-! ## Normal forms -/

namespace Stm

/-- Whether a statement is **trim**: no statement hides in its expressions, a call
stands only by itself or as the source of a move into a temp, all moves are into a temp
or a word, and no statement only evaluates a leaf. -/
def isTrim : Stm → Bool
  | move (.temp _) src => src.isCanonicalSource
  | move (.mem address) src => address.isPure && src.isPure
  | move .. => false
  | exp e => e.isCanonicalSource && !e.isLeaf
  | jump _ | label _ => true
  | cjump _ l r _ => l.isPure && r.isPure
  | seq a b => a.isTrim && b.isTrim

/-- A statement is in **normal form** if it is trim, or if there is nothing to do. -/
def IsNormal (s : Stm) : Prop := s = nop ∨ s.isTrim = true

/-- Trim statements are canonical. -/
theorem isCanonical_of_isTrim (h : s.isTrim = true) : s.isCanonical = true := by
  induction s using isTrim.induct with
  | case1 | case2 | case7 => exact h
  | case3 dst src htemp hmem =>
    rw [isTrim] at h
    · cases h
    · exact htemp
    · exact hmem
  | case4 e =>
    rw [isTrim, Bool.and_eq_true] at h
    exact h.1
  | case5 | case6 => rfl
  | case8 a b iha ihb =>
    rw [isTrim, Bool.and_eq_true] at h
    rw [isCanonical, iha h.1, ihb h.2]
    rfl

/-- What is trim does something. -/
theorem isNop_of_isTrim (h : s.isTrim = true) : s.isNop = false := by
  cases s with
  | exp e =>
    cases e with
    | const => cases h
    | name | temp | binop | not | mem | call | eseq => rfl
  | move | jump | cjump | label | seq => rfl

/-- So are normal ones. -/
theorem IsNormal.canonical (h : s.IsNormal) : s.isCanonical = true := by
  obtain rfl | h := h
  · rfl
  · exact isCanonical_of_isTrim h

/-- What is in normal form and does something is trim. -/
theorem IsNormal.trim (h : s.IsNormal) (hnop : ¬ s.isNop = true) : s.isTrim = true := by
  obtain rfl | h := h
  · exact absurd rfl hnop
  · exact h

/-- Trim statements make a trim chain. -/
theorem isTrim_chain {stms : List Stm} (hne : stms ≠ []) (h : ∀ s ∈ stms, s.isTrim = true) :
    (chain stms).isTrim = true := by
  induction stms using chain.induct with
  | case1 => exact absurd rfl hne
  | case2 s => exact h s mem_cons_self
  | case3 s rest hrest ih =>
    rw [forall_mem_cons] at h
    rw [chain, isTrim, h.1, ih hrest h.2]
    · rfl
    · exact hrest

/-- A sequence of normal forms is a normal form: what does nothing is left out. -/
theorem isNormal_seqAll {stms : List Stm} (h : ∀ s ∈ stms, s.IsNormal) :
    (seqAll stms).IsNormal := by
  have htrim : ∀ s ∈ stms.filter fun s => !s.isNop, s.isTrim = true := by
    intro s hs
    obtain ⟨hmem, hnop⟩ := mem_filter.mp hs
    exact (h s hmem).trim (by simpa using hnop)
  rw [seqAll]
  by_cases hne : (stms.filter fun s => !s.isNop) = []
  · rw [hne]
    exact .inl rfl
  · exact .inr (isTrim_chain hne htrim)

end Stm

/-! ## The labels of a tree -/

/-- The label that the node places. -/
def Node.placed? : Node → Option Label
  | .stm (.label l) => some l
  | _ => none

/-- The labels placed in an expression, from left to right. -/
def Exp.labels (e : Exp) : List Label := e.nodes.filterMap Node.placed?

/-- The labels placed in expressions. -/
def Exp.labelsAll (es : List Exp) : List Label := (Exp.nodesAll es).filterMap Node.placed?

/-- The labels placed in a statement, from left to right. -/
def Stm.labels (s : Stm) : List Label := s.nodes.filterMap Node.placed?

namespace Exp

@[simp] theorem labels_const (n : Int64) : (const n).labels = [] := rfl

@[simp] theorem labels_name (l : Label) : (name l).labels = [] := rfl

@[simp] theorem labels_temp (t : Temp) : (temp t).labels = [] := rfl

/-- Labels are listed from left to right. -/
@[simp] theorem labels_binop (op : BinOp) (l r : Exp) :
    (binop op l r).labels = l.labels ++ r.labels := filterMap_append

@[simp] theorem labels_not (e : Exp) : (not e).labels = e.labels := rfl

@[simp] theorem labels_mem (address : Exp) : (mem address).labels = address.labels := rfl

@[simp] theorem labels_call (f : Exp) (args : List Exp) :
    (call f args).labels = f.labels ++ labelsAll args := filterMap_append

@[simp] theorem labels_eseq (s : Stm) (e : Exp) : (eseq s e).labels = s.labels ++ e.labels :=
  filterMap_append

@[simp] theorem labelsAll_nil : labelsAll [] = [] := rfl

@[simp] theorem labelsAll_cons (e : Exp) (es : List Exp) :
    labelsAll (e :: es) = e.labels ++ labelsAll es := filterMap_append

/-- A pure expression places no label. -/
theorem labels_of_isPure {e : Exp} (h : e.isPure = true) : e.labels = [] :=
  filterMap_eq_nil_iff.mpr (forall_mem_nodes_of_isPure h fun _ _ => rfl)

end Exp

namespace Stm

@[simp] theorem labels_move (dst src : Exp) : (move dst src).labels = dst.labels ++ src.labels :=
  filterMap_append

@[simp] theorem labels_exp (e : Exp) : (exp e).labels = e.labels := rfl

@[simp] theorem labels_jump (l : Label) : (jump l).labels = [] := rfl

@[simp] theorem labels_label (l : Label) : (label l).labels = [l] := rfl

@[simp] theorem labels_cjump (rel : RelOp) (l r : Exp) (target : Label) :
    (cjump rel l r target).labels = l.labels ++ r.labels := filterMap_append

@[simp] theorem labels_seq (a b : Stm) : (seq a b).labels = a.labels ++ b.labels := filterMap_append

/-- The labels of a sequence are those of its statements. -/
theorem labels_seqAll (stms : List Stm) : (seqAll stms).labels = stms.flatMap labels :=
  seqAll_flatMap (fun _ => rfl) labels_seq stms

end Stm

/-- An expression that does something is a statement by itself. -/
theorem Stm.linear_exp (h : e.isLeaf = false) : (Stm.exp e).linear = [.exp e] := by
  simp [linear, flatten, isIdle, h]

/-- A statement that does nothing may as well be left out. -/
theorem Stm.flatMap_linear_unless_nop (c : Stm) :
    (if c.isNop then [] else [c]).flatMap linear = c.linear := by
  split
  · next hnop => exact (linear_of_isNop hnop).symm
  · exact flatMap_singleton ..

/-! ## Parts -/

namespace Staged

/-- The plain statements of the effects. -/
def code (p : Staged) : List Stm := p.effects.flatMap Stm.linear

/-- The parts are **ready**: trim effects, which place the labels given, and a
pure value. -/
structure Ready (p : Staged) (labels : List Label) : Prop where
  trim : ∀ stm ∈ p.effects, stm.isTrim = true
  pure : p.value.isPure = true
  labels : Body.labels p.code = labels

/-- All parts are ready, and place the labels given one after the other. -/
structure AllReady (ps : List Staged) (labels : List Label) : Prop where
  trim : ∀ stm ∈ ps.flatMap effects, stm.isTrim = true
  pure : ∀ p ∈ ps, p.value.isPure = true
  labels : Body.labels (ps.flatMap code) = labels

variable {p q : Staged} {ls : List Label} {a b : Session}

/-- One operand ahead of others that are ready. -/
theorem Ready.cons {ls' : List Label} (h : p.Ready ls) (h' : AllReady ps ls') :
    AllReady (p :: ps) (ls ++ ls') where
  trim := by
    rw [flatMap_cons, forall_mem_append]
    exact ⟨h.trim, h'.trim⟩
  pure := forall_mem_cons.mpr ⟨h.pure, h'.pure⟩
  labels := by rw [flatMap_cons, Body.labels_append, h.labels, h'.labels]

/-- A holder places no label. -/
theorem labels_hold_code (p : Staged) (k : Nat) :
    Body.labels (p.held k).code = Body.labels p.code := by
  unfold code held
  rw [flatMap_append, Body.labels_append]
  exact append_nil _

/-- Holding a canonical source makes the parts ready. -/
theorem ready_held (htrim : ∀ stm ∈ p.effects, stm.isTrim = true)
    (hsource : p.value.isCanonicalSource = true) (k : Nat) :
    (p.held k).Ready (Body.labels p.code) where
  trim := by
    show ∀ stm ∈ p.effects ++ _, _
    rw [forall_mem_append, forall_mem_singleton]
    exact ⟨htrim, hsource⟩
  pure := rfl
  labels := p.labels_hold_code k

/-- A call is held, and nothing else. -/
theorem holdCall_cases (h : p.holdCall.run a = (q, b)) :
    (∃ f args, p.value = .call f args) ∧ q = p.held a.tempCount ∧ b.tempCount = a.tempCount + 1 ∨
      (∀ f args, p.value ≠ .call f args) ∧ q = p ∧ b = a := by
  unfold holdCall at h
  split at h
  · next f args heq =>
    obtain ⟨rfl, rfl⟩ := Prod.mk.inj h
    exact .inl ⟨⟨f, args, heq⟩, rfl, rfl⟩
  · next hne =>
    obtain ⟨rfl, rfl⟩ := Prod.mk.inj h
    exact .inr ⟨hne, rfl, rfl⟩

/-- A value is held if effects come later that it does not commute with. -/
theorem protect_cases {later : Bool} (h : (p.protect later).run a = (q, b)) :
    q = p.held a.tempCount ∧ b.tempCount = a.tempCount + 1 ∨
      (later = false ∨ p.value.commutes = true) ∧ q = p ∧ b = a := by
  unfold Staged.protect at h
  split at h
  · obtain ⟨rfl, rfl⟩ := Prod.mk.inj h
    exact .inl ⟨rfl, rfl⟩
  · next hkept =>
    obtain ⟨rfl, rfl⟩ := Prod.mk.inj h
    refine .inr ⟨?_, rfl, rfl⟩
    cases later with
    | false => exact .inl rfl
    | true => exact .inr (by simpa using hkept)

/-- What holds of operands, and of whatever is held, holds of protected operands. -/
theorem forall_protectAll {P : Staged → Prop} {qs : List Staged}
    (hheld : ∀ {p : Staged} {n : Nat}, P p → n < b.tempCount → P (p.held n)) (h : ∀ p ∈ ps, P p)
    (hqs : (Staged.protectAll ps).run a = (qs, b)) : ∀ q ∈ qs, P q := by
  induction ps generalizing qs b with
  | nil =>
    obtain ⟨rfl, -⟩ := Prod.mk.inj hqs
    exact h
  | cons p ps ih =>
    obtain ⟨q, qs', c, b', hqs', hq, hall⟩ := protectAll_cons p ps a
    rw [hall] at hqs
    obtain ⟨rfl, rfl⟩ := Prod.mk.inj hqs
    rw [forall_mem_cons] at h ⊢
    refine ⟨?_, ih (fun hp hn => hheld hp (hn.trans_le (le_of_protect hq))) h.2 hqs'⟩
    obtain ⟨rfl, hcount⟩ | ⟨-, rfl, -⟩ := protect_cases hq
    · exact hheld h.1 (by omega)
    · exact h.1

/-- Protected or not, the parts stay ready. -/
theorem Ready.protect {later : Bool} (h : p.Ready ls) (hq : (p.protect later).run a = (q, b)) :
    q.Ready ls := by
  obtain ⟨rfl, -⟩ | ⟨-, rfl, -⟩ := protect_cases hq
  · have hheld := ready_held h.trim (Exp.isCanonicalSource_of_isPure h.pure) a.tempCount
    rwa [h.labels] at hheld
  · exact h

/-- Operands that are protected are still ready. -/
theorem AllReady.protectAll {qs : List Staged} (h : AllReady ps ls)
    (hqs : (Staged.protectAll ps).run a = (qs, b)) : AllReady qs ls := by
  induction ps generalizing qs b ls with
  | nil =>
    obtain ⟨rfl, rfl⟩ := Prod.mk.inj hqs
    exact h
  | cons p ps ih =>
    obtain ⟨q, qs', c, b', hqs', hq, hall⟩ := protectAll_cons p ps a
    rw [hall] at hqs
    obtain ⟨rfl, rfl⟩ := Prod.mk.inj hqs
    have htrim := h.trim
    have hlabels := h.labels
    rw [flatMap_cons, forall_mem_append] at htrim
    rw [flatMap_cons, Body.labels_append] at hlabels
    obtain ⟨hpure, hpures⟩ := forall_mem_cons.mp h.pure
    have hrest := ih ⟨htrim.2, hpures, rfl⟩ hqs'
    have hfirst := Ready.protect ⟨htrim.1, hpure, rfl⟩ hq
    exact hlabels ▸ hfirst.cons hrest

end Staged

/-- The **parts** of an expression: trim effects with the labels of the expression, and
a canonical source. -/
structure Exp.HasParts (e : Exp) (p : Staged) : Prop where
  trim : ∀ stm ∈ p.effects, stm.isTrim = true
  source : p.value.isCanonicalSource = true
  labels : Body.labels p.code = e.labels

/-- The **form** of a statement: normal, with the labels of the statement. -/
structure Stm.HasForm (stm c : Stm) : Prop where
  normal : c.IsNormal
  labels : Body.labels c.linear = stm.labels

/-- What has the form is canonical. -/
theorem Stm.HasForm.canonical {stm c : Stm} (h : stm.HasForm c) : c.isCanonical = true :=
  h.normal.canonical

/-- A canonical source is pure if it is not a call. -/
theorem Exp.isPure_of_isCanonicalSource (h : e.isCanonicalSource = true)
    (hcall : ∀ f args, e ≠ .call f args) : e.isPure = true := by
  unfold isCanonicalSource at h
  split at h
  · next f args => exact absurd rfl (hcall f args)
  · exact h

namespace Exp.HasParts

variable {e : Exp} {a b : Session} {p q : Staged}

/-- Where a call is held, the value is pure. -/
theorem holdCall (h : e.HasParts p) (hq : p.holdCall.run a = (q, b)) : q.Ready e.labels := by
  obtain ⟨-, rfl, -⟩ | ⟨hcall, rfl, -⟩ := holdCall_cases hq
  · exact h.labels ▸ ready_held h.trim h.source _
  · exact ⟨h.trim, isPure_of_isCanonicalSource h.source hcall, h.labels⟩

/-- What needs no statements is its own value. -/
theorem ofValue (h : e.isPure = true) : e.HasParts (.ofValue e) :=
  ⟨by simp [Staged.ofValue], isCanonicalSource_of_isPure h, (labels_of_isPure h).symm⟩

end Exp.HasParts

namespace Staged

variable {p q : Staged} {ls ls' : List Label} {a b : Session}

/-- Two operands, the left one protected from the right one. -/
theorem Ready.pair (hp : p.Ready ls) (hq : q.Ready ls') {p' : Staged}
    (hp' : (p.protect q.hasEffects).run a = (p', b)) : AllReady [p', q] (ls ++ ls') := by
  have hright : AllReady [q] ls' :=
    ⟨by simpa using hq.trim, by simpa using hq.pure, by simpa using hq.labels⟩
  exact (hp.protect hp').cons hright

/-- Effects, then one more statement. -/
theorem AllReady.form (h : AllReady ps ls) (stm : Stm) (hs : s.isTrim = true)
    (hplain : Body.labels s.linear = []) (hls : ls = stm.labels) :
    stm.HasForm (.seqAll (ps.flatMap effects ++ [s])) where
  normal := by
    refine Stm.isNormal_seqAll ?_
    rw [forall_mem_append, forall_mem_singleton]
    exact ⟨fun stm hstm => .inr (h.trim stm hstm), .inr hs⟩
  labels := by
    rw [Stm.linear_seqAll, flatMap_append, flatMap_singleton, Body.labels_append, hplain,
      append_nil, flatMap_assoc, ← hls]
    exact h.labels

end Staged

/-- An expression whose call is held is ready. -/
theorem Exp.ready_of {b : Session} {q : Staged}
    (hparts : ∀ {a b : Session} {p : Staged}, Yields e.stage a p b → e.HasParts p)
    (h : Yields e.stagePure a q b) : q.Ready e.labels := by
  obtain ⟨p, u, hp, hq⟩ := yields_stagePure.mp h
  exact (hparts hp).holdCall hq

/-! ## All trees -/

mutual

/-- **The parts of an expression.** -/
theorem Exp.hasParts (e : Exp) {a b : Session} {p : Staged} (h : Yields e.stage a p b) :
    e.HasParts p := by
  cases e with
  | const | name | temp =>
    obtain ⟨rfl, rfl⟩ := yields_pure.mp h
    exact .ofValue rfl
  | binop op l r =>
    obtain ⟨q₁, u, q₂, v, q, hl, hr, hq, rfl⟩ := Exp.yields_stage_binop.mp h
    have hready₁ := Exp.ready_of (fun h => l.hasParts h) hl
    have hready₂ := Exp.ready_of (fun h => r.hasParts h) hr
    have hall := hready₁.pair hready₂ hq
    refine ⟨by simpa using hall.trim, ?_, ?_⟩
    · show (q.value.isPure && q₂.value.isPure) = true
      rw [hall.pure q (by simp), hall.pure q₂ (by simp)]
      rfl
    · rw [Exp.labels_binop, ← hall.labels]
      simp [Staged.code]
  | not e =>
    obtain ⟨q, hq, rfl⟩ := Exp.yields_stage_not.mp h
    have hready := Exp.ready_of (fun h => e.hasParts h) hq
    exact ⟨hready.trim, hready.pure, hready.labels⟩
  | mem address =>
    obtain ⟨q, hq, rfl⟩ := Exp.yields_stage_mem.mp h
    have hready := Exp.ready_of (fun h => address.hasParts h) hq
    exact ⟨hready.trim, hready.pure, hready.labels⟩
  | call f args =>
    obtain ⟨q₁, u, ps, v, q, qs, hf, hargs, hqs, rfl⟩ := Exp.yields_stage_call.mp h
    have hready := Exp.ready_of (fun h => f.hasParts h) hf
    have hall := (hready.cons (Exp.allReady args hargs)).protectAll hqs
    obtain ⟨hpure, hpures⟩ := forall_mem_cons.mp hall.pure
    refine ⟨by simpa using hall.trim, ?_, ?_⟩
    · show (q.value.isPure && (qs.map Staged.value).all Exp.isPure) = true
      rw [hpure, Bool.true_and, all_map, all_eq_true]
      exact hpures
    · rw [Exp.labels_call, ← hall.labels, Staged.code, flatMap_append, flatMap_assoc, flatMap_cons]
      rfl
  | eseq stm e =>
    obtain ⟨c, u, q, hc, hq, rfl⟩ := Exp.yields_stage_eseq.mp h
    have hform := stm.hasForm hc
    have hready := Exp.ready_of (fun h => e.hasParts h) hq
    refine ⟨?_, Exp.isCanonicalSource_of_isPure hready.pure, ?_⟩
    · show ∀ s ∈ (if c.isNop then [] else [c]) ++ q.effects, _
      rw [forall_mem_append]
      refine ⟨?_, hready.trim⟩
      split
      · simp
      · next hnop => exact forall_mem_singleton.mpr (hform.normal.trim hnop)
    · rw [Exp.labels_eseq, ← hform.labels, ← hready.labels, Staged.code, flatMap_append,
        Stm.flatMap_linear_unless_nop, Body.labels_append]
      rfl

/-- Staged operands are ready. -/
theorem Exp.allReady (es : List Exp) {a b : Session} {ps : List Staged}
    (h : Yields (Exp.stageAll es) a ps b) : Staged.AllReady ps (Exp.labelsAll es) := by
  cases es with
  | nil =>
    obtain ⟨rfl, rfl⟩ := yields_pure.mp h
    exact ⟨by simp, by simp, rfl⟩
  | cons e es =>
    obtain ⟨q, u, qs, hq, hqs, rfl⟩ := Exp.yields_stageAll_cons.mp h
    rw [Exp.labelsAll_cons]
    exact (Exp.ready_of (fun h => e.hasParts h) hq).cons (Exp.allReady es hqs)

/-- A move takes its form from its destination. -/
theorem Exp.moveInto_hasForm (dst : Exp) {a b : Session} {e : Exp} {src : CompileM Staged}
    (hsrc : ∀ {a b : Session} {p : Staged}, Yields src a p b → e.HasParts p) {c : Stm}
    (h : Yields (dst.moveInto src) a c b) : (Stm.move dst e).HasForm c := by
  cases dst with
  | temp t =>
    simp only [Exp.moveInto, yields_bind, yields_pure] at h
    obtain ⟨p, u, hp, rfl, rfl⟩ := h
    have hparts := hsrc hp
    refine ⟨Stm.isNormal_seqAll ?_, ?_⟩
    · rw [forall_mem_append, forall_mem_singleton]
      exact ⟨fun stm hstm => .inr (hparts.trim stm hstm), .inr hparts.source⟩
    · rw [Staged.andThen, Stm.linear_seqAll, flatMap_append, Body.labels_append,
        Stm.labels_move, Exp.labels_temp, nil_append, ← hparts.labels]
      exact append_nil _
  | mem address =>
    obtain ⟨q₁, u, p₂, v, q₂, v', q, hq₁, hp₂, hq₂, hq, rfl⟩ := Exp.yields_moveInto_mem.mp h
    have hready₁ := Exp.ready_of (fun h => address.hasParts h) hq₁
    have hready₂ := (hsrc hp₂).holdCall hq₂
    have hall := hready₁.pair hready₂ hq
    have hmove : (Stm.move (.mem q.value) q₂.value).isTrim = true := by
      show (q.value.isPure && q₂.value.isPure) = true
      rw [hall.pure q (by simp), hall.pure q₂ (by simp)]
      rfl
    simpa using hall.form (.move (.mem address) e) hmove rfl
      (by rw [Stm.labels_move, Exp.labels_mem])
  | eseq stm dst =>
    simp only [Exp.moveInto, yields_bind, yields_pure] at h
    obtain ⟨c₁, u, hc₁, c₂, b', hc₂, rfl, rfl⟩ := h
    have hform := stm.hasForm hc₁
    have hform' := dst.moveInto_hasForm hsrc hc₂
    refine ⟨Stm.isNormal_seqAll ?_, ?_⟩
    · simpa using ⟨hform.normal, hform'.normal⟩
    · rw [Stm.linear_seqAll]
      simp [hform.labels, hform'.labels]
  | const | name | binop | not | call => exact absurd h not_yields_throw

/-- **The form of a statement.** -/
theorem Stm.hasForm (stm : Stm) {a b : Session} {c : Stm} (h : Yields stm.canonicalize a c b) :
    stm.HasForm c := by
  cases stm with
  | move dst src =>
    rw [Stm.canonicalize_move] at h
    exact dst.moveInto_hasForm (fun h => src.hasParts h) h
  | exp e =>
    obtain ⟨p, hp, rfl⟩ := Stm.yields_canonicalize_exp.mp h
    have hparts := e.hasParts hp
    refine ⟨Stm.isNormal_seqAll ?_, ?_⟩
    · rw [forall_mem_append]
      refine ⟨fun stm hstm => .inr (hparts.trim stm hstm), ?_⟩
      split
      · simp
      · next hleaf =>
        refine forall_mem_singleton.mpr (.inr ?_)
        rw [Stm.isTrim, hparts.source]
        simpa using hleaf
    · rw [Stm.linear_seqAll, flatMap_append, Body.labels_append, Stm.labels_exp, ← hparts.labels]
      split
      · exact append_nil _
      · next hleaf =>
        rw [flatMap_singleton, Stm.linear_exp (by simpa using hleaf)]
        exact append_nil _
  | jump | label =>
    rw [Stm.canonicalize, yields_pure] at h
    obtain ⟨rfl, rfl⟩ := h
    exact ⟨.inr rfl, rfl⟩
  | cjump rel l r target =>
    obtain ⟨q₁, u, q₂, v, q, hl, hr, hq, rfl⟩ := Stm.yields_canonicalize_cjump.mp h
    have hready₁ := Exp.ready_of (fun h => l.hasParts h) hl
    have hready₂ := Exp.ready_of (fun h => r.hasParts h) hr
    have hall := hready₁.pair hready₂ hq
    have hbranch : (Stm.cjump rel q.value q₂.value target).isTrim = true := by
      rw [Stm.isTrim, hall.pure q (by simp), hall.pure q₂ (by simp)]
      rfl
    simpa using hall.form (.cjump rel l r target) hbranch rfl (Stm.labels_cjump ..).symm
  | seq s s' =>
    obtain ⟨c₁, u, c₂, hc₁, hc₂, rfl⟩ := Stm.yields_canonicalize_seq.mp h
    have hform := s.hasForm hc₁
    have hform' := s'.hasForm hc₂
    refine ⟨Stm.isNormal_seqAll ?_, ?_⟩
    · simpa using ⟨hform.normal, hform'.normal⟩
    · rw [Stm.linear_seqAll]
      simp [hform.labels, hform'.labels]

end

/-! ## Trees that have a canonical form -/

namespace Exp

/-- What an expression comes to as a destination, without the statements that run before. -/
def peeled : Exp → Exp
  | eseq _ e => e.peeled
  | e => e

/-- Whether the expression is a **place**: a temp, or a word in memory. -/
def isPlace : Exp → Bool
  | temp _ | mem _ => true
  | _ => false

/-- What is wrong with a move into the expression. -/
def moveFault? (dst : Exp) : Option Error :=
  if dst.peeled.isPlace then none else some (.malformed (.notAssignable dst.peeled.kind))

end Exp

namespace Node

/-- What is wrong with the node: it is a move into something that is no place. -/
def fault? : Node → Option Error
  | .stm (.move dst _) => dst.moveFault?
  | _ => none

/-- Whether the node is no move, or one whose destination can be **assigned**. -/
def assignable : Node → Bool
  | .stm (.move dst _) => dst.assigned?.isSome || dst.stored?.isSome
  | _ => true

end Node

/-- What an expression comes to is a place if it has one to assign. -/
theorem Exp.isPlace_peeled (dst : Exp) :
    dst.peeled.isPlace = (dst.assigned?.isSome || dst.stored?.isSome) := by
  induction dst using Exp.peeled.induct with
  | case1 s e ih => exact ih
  | case2 e heseq =>
    cases e with
    | eseq s e => exact absurd rfl (heseq s e)
    | const | name | temp | binop | not | mem | call => rfl

/-- Nothing is wrong with a move that can be made. -/
theorem Node.fault?_of_assignable {n : Node} (h : n.assignable = true) : n.fault? = none := by
  cases n with
  | exp e => rfl
  | stm s =>
    cases s with
    | move dst src => exact if_pos ((Exp.isPlace_peeled dst).trans h)
    | exp | jump | cjump | label | seq => rfl

/-- The nodes **decide** a computation: it succeeds if nothing is wrong with any of them,
and otherwise it fails with what is wrong with one of them. -/
def DecidedBy {α : Type} (ns : List Node) (x : CompileM α) : Prop :=
  ∀ a, (∃ r b, Yields x a r b) ∧ (∀ n ∈ ns, n.fault? = none) ∨
    ∃ n ∈ ns, ∃ e, n.fault? = some e ∧ FailsWith x a e

namespace DecidedBy

variable {α β : Type} {ns ms : List Node} {n : Node} {x : CompileM α}

/-- What always succeeds is decided by nothing. -/
protected theorem pure (r : α) : DecidedBy [] (pure r) :=
  fun a => .inl ⟨⟨r, a, rfl⟩, forall_mem_nil _⟩

/-- Drawing temps and labels never fails. -/
protected theorem lift (x : SessionM α) : DecidedBy [] (liftM x : CompileM α) :=
  fun a => .inl ⟨⟨_, _, yields_lift.mpr (Prod.eta (x.run a)).symm⟩, forall_mem_nil _⟩

/-- A node that has this fault decides. -/
protected theorem throw {e : Error} (hn : n ∈ ns) (h : n.fault? = some e) :
    DecidedBy ns (throw e : CompileM α) :=
  fun _ => .inr ⟨n, hn, e, h, failsWith_throw.mpr rfl⟩

/-- Two computations are decided by the nodes of both. -/
protected theorem bind {f : α → CompileM β} (hx : DecidedBy ns x) (hf : ∀ r, DecidedBy ms (f r)) :
    DecidedBy (ns ++ ms) (x >>= f) := by
  intro a
  obtain ⟨⟨r, u, hr⟩, hns⟩ | ⟨n, hn, e, hfault, hfails⟩ := hx a
  · obtain ⟨⟨r', b, hr'⟩, hms⟩ | ⟨n, hn, e, hfault, hfails⟩ := hf r u
    · exact .inl ⟨⟨r', b, hr.bind_iff.mpr hr'⟩, forall_mem_append.mpr ⟨hns, hms⟩⟩
    · exact .inr ⟨n, mem_append_right _ hn, e, hfault, hr.failsWith_bind_iff.mpr hfails⟩
  · exact .inr ⟨n, mem_append_left _ hn, e, hfault, failsWith_bind.mpr (.inl hfails)⟩

/-- Holding a call cannot fail. -/
theorem bind_holdCall {x : CompileM Staged} {f : Staged → CompileM β} (hx : DecidedBy ns x)
    (hf : ∀ q, DecidedBy ms (f q)) :
    DecidedBy (ns ++ ms) (x >>= fun p => liftM p.holdCall >>= f) :=
  hx.bind fun _ => (DecidedBy.lift _).bind hf

/-- It does not matter in which order the nodes are listed, or how often. -/
theorem congr (h : DecidedBy ns x) (hmem : ∀ n, n ∈ ns ↔ n ∈ ms) : DecidedBy ms x := by
  intro a
  obtain ⟨hyields, hns⟩ | ⟨n, hn, hfails⟩ := h a
  · exact .inl ⟨hyields, fun n hn => hns n ((hmem n).mpr hn)⟩
  · exact .inr ⟨n, (hmem n).mp hn, hfails⟩

/-- A node with which nothing is wrong decides nothing. -/
theorem cons (hn : n.fault? = none) (h : DecidedBy ns x) : DecidedBy (n :: ns) x := by
  intro a
  obtain ⟨hyields, hns⟩ | ⟨m, hm, hfails⟩ := h a
  · exact .inl ⟨hyields, forall_mem_cons.mpr ⟨hn, hns⟩⟩
  · exact .inr ⟨m, mem_cons_of_mem n hm, hfails⟩

end DecidedBy

mutual

/-- **Its nodes decide** whether an expression can be staged. -/
theorem Exp.stage_decided (e : Exp) : DecidedBy e.nodes e.stage := by
  cases e with
  | const | name | temp => exact .cons rfl (.pure _)
  | binop op l r =>
    exact .cons rfl ((l.stage_decided.bind_holdCall fun _ => r.stage_decided.bind_holdCall fun _ =>
      .lift _).congr (by simp))
  | not e | mem e =>
    exact .cons rfl ((e.stage_decided.bind_holdCall fun _ => .pure _).congr (by simp))
  | call f args =>
    exact .cons rfl ((f.stage_decided.bind_holdCall fun _ =>
      (Exp.stageAll_decided args).bind fun _ => .lift _).congr (by simp))
  | eseq s e =>
    exact .cons rfl ((s.canonicalize_decided.bind fun _ => e.stage_decided.bind_holdCall fun _ =>
      .pure _).congr (by simp))

/-- Operands are decided by their nodes. -/
theorem Exp.stageAll_decided (es : List Exp) : DecidedBy (Exp.nodesAll es) (Exp.stageAll es) := by
  cases es with
  | nil => exact .pure _
  | cons e es =>
    rw [Exp.stageAll, Exp.nodesAll]
    exact (e.stage_decided.bind_holdCall fun _ => (Exp.stageAll_decided es).bind fun _ =>
      .pure _).congr (by simp)

/-- A move is decided by itself, its destination and its source. -/
theorem Exp.moveInto_decided (dst : Exp) {src : CompileM Staged} {ns : List Node}
    (hsrc : DecidedBy ns src) {n : Node} (hn : n.fault? = dst.moveFault?) :
    DecidedBy (n :: (dst.nodes ++ ns)) (dst.moveInto src) := by
  cases dst with
  | temp t => exact .cons hn (.cons rfl ((hsrc.bind fun _ => .pure _).congr (by simp)))
  | mem address =>
    exact .cons hn (.cons rfl ((address.stage_decided.bind_holdCall fun _ =>
      hsrc.bind_holdCall fun _ => (DecidedBy.lift _).bind fun _ => .pure _).congr (by simp)))
  | eseq s dst =>
    -- the move is as good or bad as one into what comes after the statement
    have hrest := s.canonicalize_decided.bind fun c =>
      (dst.moveInto_decided hsrc hn).bind fun rest => .pure (Stm.seqAll [c, rest])
    refine (hrest.cons (n := .exp (.eseq s dst)) rfl).congr fun m => ?_
    simp only [Exp.nodes, mem_cons, mem_append, not_mem_nil]
    tauto
  | const | name | binop | not | call => exact .throw mem_cons_self hn

/-- **Its nodes decide** whether a statement has a canonical form. -/
theorem Stm.canonicalize_decided (stm : Stm) : DecidedBy stm.nodes stm.canonicalize := by
  cases stm with
  | move dst src =>
    rw [Stm.canonicalize_move]
    exact dst.moveInto_decided src.stage_decided rfl
  | exp e =>
    rw [Stm.canonicalize_exp]
    exact .cons rfl ((e.stage_decided.bind fun _ => .pure _).congr (by simp))
  | jump | label =>
    rw [Stm.canonicalize]
    exact .cons rfl (.pure _)
  | cjump rel l r target =>
    rw [Stm.canonicalize_cjump]
    exact .cons rfl (((l.stage_decided.bind fun _ => .lift _).bind fun _ =>
      (r.stage_decided.bind fun _ => .lift _).bind fun _ =>
        (DecidedBy.lift _).bind fun _ => .pure _).congr (by simp))
  | seq s s' =>
    rw [Stm.canonicalize_seq]
    exact .cons rfl ((s.canonicalize_decided.bind fun _ => s'.canonicalize_decided.bind fun _ =>
      .pure _).congr (by simp))

end

/-- Statements have a canonical form if all moves in them can be made. -/
theorem Stm.exists_canonicalize (stm : Stm) (h : ∀ n ∈ stm.nodes, n.assignable = true)
    (a : Session) : ∃ c b, Yields stm.canonicalize a c b := by
  obtain ⟨hyields, -⟩ | ⟨n, hn, e, hfault, -⟩ := stm.canonicalize_decided a
  · exact hyields
  · rw [Node.fault?_of_assignable (h n hn)] at hfault
    cases hfault

end TreeBackend
