import TreeBackend.Proofs.CanonicalForms

/-!
# Canonical forms are normal forms

Canonicalization fails at a move into something that is no place, and nowhere
else; every other tree is brought into normal form (`Stm.canonicalize_total`).
A statement in normal form is left as it is, down to the way its sequences are
nested, and nothing is drawn from the session (`Stm.IsNormal.canonicalize`). So
what canonicalization returns it does not change again
(`Stm.canonicalize_idempotent`).
-/

namespace TreeBackend

open List

/-! ## The statements of a normal form -/

/-- Whether the node is an expression, or a trim statement. -/
def Node.isTrim : Node → Bool
  | .exp _ => true
  | .stm s => s.isTrim

/-- A pure expression is made of expressions. -/
theorem Exp.isTrim_nodes {e : Exp} (h : e.isPure = true) : ∀ n ∈ e.nodes, n.isTrim = true :=
  forall_mem_nodes_of_isPure h fun _ _ => rfl

/-- A canonical source is made of expressions. -/
theorem Exp.isTrim_nodes_source {e : Exp} (h : e.isCanonicalSource = true) :
    ∀ n ∈ e.nodes, n.isTrim = true := by
  cases e with
  | call f args =>
    rw [isCanonicalSource, Bool.and_eq_true, all_eq_true] at h
    rw [nodes, nodesAll_eq, forall_mem_cons, forall_mem_append, forall_mem_flatMap]
    exact ⟨rfl, isTrim_nodes h.1, fun e he => isTrim_nodes (h.2 e he)⟩
  | const | name | temp | binop | not | mem | eseq => exact isTrim_nodes h

namespace Stm

/-- A trim statement is made of expressions and trim statements. -/
theorem isTrim_nodes {c : Stm} (h : c.isTrim = true) : ∀ n ∈ c.nodes, n.isTrim = true := by
  induction c using isTrim.induct with
  | case1 t src =>
    rw [nodes, Node.forall_mem_parts]
    exact ⟨h, Exp.isTrim_nodes rfl, Exp.isTrim_nodes_source h⟩
  | case2 address src =>
    rw [nodes, Node.forall_mem_parts]
    refine ⟨h, ?_⟩
    rw [isTrim, Bool.and_eq_true] at h
    exact ⟨Exp.isTrim_nodes (e := .mem address) h.1, Exp.isTrim_nodes h.2⟩
  | case3 dst src htemp hmem =>
    rw [isTrim] at h
    · cases h
    · exact htemp
    · exact hmem
  | case4 e =>
    rw [nodes, forall_mem_cons]
    refine ⟨h, ?_⟩
    rw [isTrim, Bool.and_eq_true] at h
    exact Exp.isTrim_nodes_source h.1
  | case5 | case6 => exact forall_mem_singleton.mpr rfl
  | case7 rel l r target =>
    rw [nodes, Node.forall_mem_parts]
    refine ⟨h, ?_⟩
    rw [isTrim, Bool.and_eq_true] at h
    exact ⟨Exp.isTrim_nodes h.1, Exp.isTrim_nodes h.2⟩
  | case8 a b iha ihb =>
    rw [nodes, Node.forall_mem_parts]
    refine ⟨h, ?_⟩
    rw [isTrim, Bool.and_eq_true] at h
    exact ⟨iha h.1, ihb h.2⟩

namespace IsNormal

variable {c : Stm}

/-- All statements of a normal form are normal forms. -/
theorem of_mem_nodes (h : c.IsNormal) {s : Stm} (hs : .stm s ∈ c.nodes) : s.IsNormal := by
  obtain rfl | h := h
  · refine .inl ?_
    simpa [nop, nodes, Exp.nodes] using hs
  · exact .inr (isTrim_nodes h _ hs)

/-- Moves of a normal form are into a place. -/
theorem isPlace (h : c.IsNormal) {dst src : Exp} (hmove : .stm (.move dst src) ∈ c.nodes) :
    dst.isPlace = true := by
  obtain hnop | htrim := h.of_mem_nodes hmove
  · cases hnop
  · cases dst with
    | temp | mem => rfl
    | const | name | binop | not | call | eseq => cases htrim

/-- The statements of a sequence in a normal form do something. -/
theorem isNop (h : c.IsNormal) {x y : Stm} (hseq : .stm (.seq x y) ∈ c.nodes) :
    x.isNop = false ∧ y.isNop = false := by
  obtain hnop | htrim := h.of_mem_nodes hseq
  · cases hnop
  · rw [isTrim, Bool.and_eq_true] at htrim
    exact ⟨isNop_of_isTrim htrim.1, isNop_of_isTrim htrim.2⟩

end IsNormal

end Stm

/-! ## Trees with and without a canonical form -/

/-- Something is wrong with a node just if it is a move into what is no place. -/
theorem Node.fault?_eq_some_iff {n : Node} {e : Error} :
    n.fault? = some e ↔ ∃ dst src, n = .stm (.move dst src) ∧ dst.peeled.isPlace = false ∧
      e = .malformed (.notAssignable dst.peeled.kind) := by
  constructor
  · intro h
    unfold fault? at h
    split at h
    · next dst src =>
      unfold Exp.moveFault? at h
      split at h
      · cases h
      · next hplace => exact ⟨dst, src, rfl, by simpa using hplace, (Option.some.inj h).symm⟩
    · cases h
  · rintro ⟨dst, src, rfl, hplace, rfl⟩
    exact if_neg (by simp [hplace])

namespace Stm

/-- An error of canonicalization is about the destination of some move. -/
theorem error_of_canonicalize {stm : Stm} {a : Session} {e : Error}
    (h : FailsWith stm.canonicalize a e) : ∃ dst src, .stm (.move dst src) ∈ stm.nodes ∧
      dst.peeled.isPlace = false ∧ e = .malformed (.notAssignable dst.peeled.kind) := by
  obtain ⟨⟨c, b, hc⟩, -⟩ | ⟨n, hn, e', hfault, hfails⟩ := stm.canonicalize_decided a
  · exact absurd h hc.not_failsWith
  · obtain ⟨dst, src, rfl, hplace, rfl⟩ := Node.fault?_eq_some_iff.mp hfault
    obtain rfl := hfails.unique h
    exact ⟨dst, src, hn, hplace, rfl⟩

/-- **Canonicalization is total up to destinations.** It fails if and only if some move
of the tree, however deep inside, is into an expression that comes to no place. The
error says what shape such a destination has, and there is no other error: operands that
are put in order are not lost, and no call is left without its function. If it
does not fail, it returns a canonical statement, in which every move is into a temp or
a word, and every statement of a sequence does something. -/
theorem canonicalize_total (stm : Stm) (a : Session) : ((∃ e, FailsWith stm.canonicalize a e) ↔
      ∃ dst src, .stm (.move dst src) ∈ stm.nodes ∧ dst.peeled.isPlace = false) ∧
    (∀ e, FailsWith stm.canonicalize a e → ∃ dst src, .stm (.move dst src) ∈ stm.nodes ∧
      dst.peeled.isPlace = false ∧ e = .malformed (.notAssignable dst.peeled.kind)) ∧
    (∀ construct, ¬ FailsWith stm.canonicalize a (.malformed (.lostOperands construct))) ∧
    ¬ FailsWith stm.canonicalize a (.malformed .callWithoutTarget) ∧
    ((∀ e, ¬ FailsWith stm.canonicalize a e) → ∃ c b, Yields stm.canonicalize a c b ∧
      c.isCanonical = true ∧
      (∀ dst src, .stm (.move dst src) ∈ c.nodes → dst.isPlace = true) ∧
      ∀ x y, .stm (.seq x y) ∈ c.nodes → x.isNop = false ∧ y.isNop = false) := by
  refine ⟨⟨?_, ?_⟩, fun e h => error_of_canonicalize h, ?_, ?_, ?_⟩
  · rintro ⟨e, h⟩
    obtain ⟨dst, src, hmove, hplace, -⟩ := error_of_canonicalize h
    exact ⟨dst, src, hmove, hplace⟩
  · rintro ⟨dst, src, hmove, hplace⟩
    obtain ⟨-, hnone⟩ | ⟨n, hn, e, -, hfails⟩ := stm.canonicalize_decided a
    · have hfault := Node.fault?_eq_some_iff.mpr ⟨dst, src, rfl, hplace, rfl⟩
      rw [hnone _ hmove] at hfault
      cases hfault
    · exact ⟨e, hfails⟩
  · intro construct h
    obtain ⟨dst, src, -, -, heq⟩ := error_of_canonicalize h
    cases heq
  · intro h
    obtain ⟨dst, src, -, -, heq⟩ := error_of_canonicalize h
    cases heq
  · intro hnever
    obtain ⟨⟨c, b, hc⟩, -⟩ | ⟨n, hn, e, -, hfails⟩ := stm.canonicalize_decided a
    · have hnormal := (stm.hasForm hc).normal
      exact ⟨c, b, hc, hnormal.canonical, fun dst src => hnormal.isPlace, fun x y => hnormal.isNop⟩
    · exact absurd hfails (hnever e)

end Stm

/-! ## Normal forms are left alone -/

/-- Values without effects need no protection from one another. -/
theorem Staged.protectAll_ofValue (es : List Exp) (a : Session) :
    (Staged.protectAll (es.map .ofValue)).run a = (es.map .ofValue, a) := by
  induction es with
  | nil => rfl
  | cons e es ih =>
    have hany : (es.map Staged.ofValue).any hasEffects = false := by simp [hasEffects, ofValue]
    refine run_bind_eq_iff.mpr ⟨_, a, ih, run_bind_eq_iff.mpr ⟨.ofValue e, a, ?_, rfl⟩⟩
    rw [hany]
    rfl

namespace Exp

/-- Pure expressions are their own values. -/
theorem stageAll_of_isPure {es : List Exp} (h : ∀ e ∈ es, e.isPure = true) (a : Session) :
    Yields (Exp.stageAll es) a (es.map .ofValue) a := by
  induction es with
  | nil => rfl
  | cons e es ih =>
    rw [forall_mem_cons] at h
    exact yields_stageAll_cons.mpr ⟨_, a, _, stagePure_of_isPure h.1 a, ih h.2, rfl⟩

/-- A canonical source is its own value. -/
theorem stage_of_isCanonicalSource {e : Exp} (h : e.isCanonicalSource = true) (a : Session) :
    Yields e.stage a (.ofValue e) a := by
  cases e with
  | call f args =>
    rw [isCanonicalSource, Bool.and_eq_true, all_eq_true] at h
    refine yields_stage_call.mpr ⟨_, a, _, a, _, _, stagePure_of_isPure h.1 a,
      stageAll_of_isPure h.2 a, Staged.protectAll_ofValue (f :: args) a, ?_⟩
    simp [Staged.ofValue, Function.comp_def, flatMap_map]
  | const | name | temp | binop | not | mem | eseq => exact stage_of_isPure h a

end Exp

namespace Stm

theorem canonicalize_of_isTrim {c : Stm} (h : c.isTrim = true) (a : Session) :
    Yields c.canonicalize a c a := by
  induction c using isTrim.induct with
  | case1 t src =>
    rw [canonicalize_move]
    exact yields_bind.mpr ⟨_, a, Exp.stage_of_isCanonicalSource h a, rfl⟩
  | case2 address src =>
    rw [isTrim, Bool.and_eq_true] at h
    rw [canonicalize_move]
    exact Exp.yields_moveInto_mem.mpr ⟨_, a, _, a, _, a, _, Exp.stagePure_of_isPure h.1 a,
      Exp.stage_of_isPure h.2 a, Staged.holdCall_ofValue h.2 a, rfl, rfl⟩
  | case3 dst src htemp hmem =>
    rw [isTrim] at h
    · cases h
    · exact htemp
    · exact hmem
  | case4 e =>
    rw [isTrim, Bool.and_eq_true] at h
    refine yields_canonicalize_exp.mpr ⟨_, Exp.stage_of_isCanonicalSource h.1 a, ?_⟩
    have hnop : (exp e).isNop = false := isNop_of_isTrim (by rw [isTrim, h.1, h.2]; rfl)
    have hleaf : e.isLeaf = false := by simpa using h.2
    simp [Staged.ofValue, hleaf, seqAll, chain, hnop]
  | case5 | case6 =>
    rw [canonicalize]
    rfl
  | case7 rel l r target =>
    rw [isTrim, Bool.and_eq_true] at h
    exact yields_canonicalize_cjump.mpr ⟨_, a, _, a, _, Exp.stagePure_of_isPure h.1 a,
      Exp.stagePure_of_isPure h.2 a, rfl, rfl⟩
  | case8 x y ihx ihy =>
    rw [isTrim, Bool.and_eq_true] at h
    refine yields_canonicalize_seq.mpr ⟨x, a, y, ihx h.1, ihy h.2, ?_⟩
    simp [seqAll, chain, isNop_of_isTrim h.1, isNop_of_isTrim h.2]

/-- **Normal forms are left alone**, and so is the session. -/
theorem IsNormal.canonicalize {c : Stm} (h : c.IsNormal) (a : Session) :
    Yields c.canonicalize a c a := by
  obtain rfl | h := h
  · exact yields_canonicalize_exp.mpr ⟨_, rfl, rfl⟩
  · exact canonicalize_of_isTrim h a

/-- **Canonicalization is idempotent.** What it returns, it returns again, the very
same tree, in whatever session; it leaves that session as it is, and draws no holder. -/
theorem canonicalize_idempotent {stm c : Stm} {a b : Session} (h : Yields stm.canonicalize a c b)
    (s : Session) : Yields c.canonicalize s c s ∧ c.holdersDrawn s = 0 := by
  have hagain := (stm.hasForm h).normal.canonicalize s
  refine ⟨hagain, ?_⟩
  rw [holdersDrawn, hagain]
  exact Nat.sub_self _

/-- A sum of a word and a call, after something that does nothing. The call has an
argument that runs two statements first. -/
def heldSum : Stm := let x : Exp := .temp ⟨7, .plain "x"⟩
  .seq (.exp (.const 3)) <| .move x <| .binop .plus (.mem (.binop .plus x (.const 4))) <|
    .call (.name ⟨"f"⟩) [.eseq (.seq (.seq (.label ⟨"l"⟩) (.move x (.const 1))) .nop) x, x]

/-- Two holders are drawn for the sum, and none the second time. -/
theorem canonicalize_idempotent_heldSum : ∃ c b, Yields heldSum.canonicalize (.ofTemps ["x"]) c b ∧
    heldSum.holdersDrawn (.ofTemps ["x"]) = 2 ∧
    Yields c.canonicalize b c b ∧ c.holdersDrawn b = 0 := by
  obtain ⟨c, b, h⟩ : ∃ c b, Yields heldSum.canonicalize (.ofTemps ["x"]) c b :=
    exists_yields_of_isOk (by decide +kernel)
  exact ⟨c, b, h, by decide +kernel, canonicalize_idempotent h b⟩

end Stm

end TreeBackend
