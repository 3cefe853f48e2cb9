import TreeBackend.Proofs.Pieces
import TreeBackend.Proofs.Staging

/-!
# Linear bodies run as their trees

The linear form of a canonical tree is the list of its plain statements. This
module compares two bodies: the plain statements of a tree as it was built, with
all that hides in their expressions, and the linear form of its canonical tree.

The second is made of pieces, one for each statement of the first
(`Stm.exists_pieces`), and a piece does what its statement does. A piece may be
empty – nothing is left of a statement that only evaluates a leaf – so the two
bodies are not run in lock step; but each is run to the end of a piece at a time.
`Stm.canonicalize_preserves_runs` is the result: both bodies end or both go on,
they make the same calls with the same arguments, and where they end, they
leave the same memory and the same content of the session's temps.
-/

namespace TreeBackend

open List World

/-! ## Linear forms -/

namespace Stm

variable {V M : Type} {host : Host V M}

/-- The plain statements of a statement that are not idle. -/
def linear (c : Stm) : List Stm := c.flatten.filter fun s => !s.isIdle

theorem linear_seq (a b : Stm) : (seq a b).linear = a.linear ++ b.linear := filter_append ..

theorem linear_of_isNop {s : Stm} (h : s.isNop = true) : s.linear = [] := by
  unfold isNop at h
  split at h
  · rfl
  · cases h

/-- The linear form of a sequence is made of those of its statements. -/
theorem linear_seqAll (stms : List Stm) : (seqAll stms).linear = stms.flatMap linear :=
  seqAll_flatMap (fun _ => rfl) linear_seq stms

theorem exec_of_isIdle {s : Stm} (h : s.isIdle = true) (w : World V M) : s.exec host w = w := by
  unfold isIdle at h
  split at h
  · exact Exp.eval_snd_of_isPure (Exp.isPure_of_isLeaf h) w
  · cases h

/-- The linear form of a statement does what the statement does. -/
theorem execAll_linear (c : Stm) (w : World V M) : execAll host c.linear w = c.exec host w := by
  have hfilter : ∀ (stms : List Stm) (w : World V M),
      execAll host (stms.filter fun s => !s.isIdle) w = execAll host stms w := by
    intro stms
    induction stms with
    | nil => exact fun w => rfl
    | cons s stms ih =>
      intro w
      rw [filter_cons]
      split
      · rw [execAll_cons, execAll_cons, ih]
      · next hidle => rw [ih, execAll_cons, exec_of_isIdle (by simpa using hidle)]
  have hflatten : ∀ w : World V M, execAll host c.flatten w = c.exec host w := by
    induction c using flatten.induct with
    | case1 a b iha ihb =>
      intro w
      rw [flatten, execAll_append, iha, ihb]
      rfl
    | case2 c hseq =>
      intro w
      rw [flatten]
      · rfl
      · exact hseq
  rw [linear, hfilter, hflatten]

theorem execAll_flatMap_linear (stms : List Stm) (w : World V M) :
    execAll host (stms.flatMap linear) w = execAll host stms w := by
  induction stms generalizing w with
  | nil => rfl
  | cons s stms ih => rw [flatMap_cons, execAll_append, execAll_linear, ih, execAll_cons]

end Stm

theorem Exp.hasEseq_of_isPure {e : Exp} (h : e.isPure = true) : e.hasEseq = false := by
  induction e using Exp.isPure.induct with
  | case1 | case2 | case3 => rfl
  | case4 op l r ihl ihr =>
    rw [isPure, Bool.and_eq_true] at h
    rw [hasEseq, ihl h.1, ihr h.2]
    rfl
  | case5 e ih | case6 address ih => exact ih h
  | case7 | case8 => cases h

theorem Exp.hasEseq_of_isCanonicalSource {e : Exp} (h : e.isCanonicalSource = true) :
    e.hasEseq = false := by
  unfold isCanonicalSource at h
  split at h
  · next f args =>
    rw [Bool.and_eq_true, all_eq_true] at h
    have hargs : hasEseqAny args = false := by
      obtain ⟨_, h⟩ := h
      induction args with
      | nil => rfl
      | cons e es ih =>
        rw [forall_mem_cons] at h
        rw [hasEseqAny, hasEseq_of_isPure h.1, ih h.2]
        rfl
    rw [hasEseq, hasEseq_of_isPure h.1, hargs]
    rfl
  · exact hasEseq_of_isPure h

namespace Stm

/-- No statement hides in the expressions of a canonical statement. -/
theorem hasEseq_of_mem_operands {c : Stm} (h : c.isCanonical = true) :
    ∀ e ∈ c.operands, e.hasEseq = false := by
  unfold isCanonical at h
  split at h
  · simpa [operands, Exp.hasEseq] using Exp.hasEseq_of_isCanonicalSource h
  · rw [Bool.and_eq_true] at h
    simpa [operands] using ⟨Exp.hasEseq_of_isPure h.1, Exp.hasEseq_of_isPure h.2⟩
  · simpa [operands] using Exp.hasEseq_of_isCanonicalSource h
  · rw [Bool.and_eq_true] at h
    simpa [operands] using ⟨Exp.hasEseq_of_isPure h.1, Exp.hasEseq_of_isPure h.2⟩
  · simp [operands]
  · simp [operands]
  · simp [operands]

theorem checkPlain_of_isCanonical {c : Stm} (h : c.isCanonical = true) :
    ∀ t ∈ c.flatten, t.checkPlain = .ok () := by
  induction c using flatten.induct with
  | case1 a b iha ihb =>
    rw [isCanonical, Bool.and_eq_true] at h
    rw [flatten, forall_mem_append]
    exact ⟨iha h.1, ihb h.2⟩
  | case2 c hseq =>
    rw [flatten, forall_mem_singleton, checkPlain, if_neg]
    · rfl
    · simpa using hasEseq_of_mem_operands h
    · exact hseq

/-- **Canonical statements have a linear form.** -/
theorem linearize_of_isCanonical {c : Stm} (h : c.isCanonical = true) :
    c.linearize = .ok c.linear := by
  have hforM : ∀ stms : List Stm, (∀ t ∈ stms, t.checkPlain = .ok ()) →
      stms.forM checkPlain = .ok () := by
    intro stms hstms
    induction stms with
    | nil => rfl
    | cons t stms ih =>
      rw [forall_mem_cons] at hstms
      show (t.checkPlain >>= fun _ => stms.forM checkPlain) = .ok ()
      rw [hstms.1]
      exact ih hstms.2
  rw [linearize, hforM _ (checkPlain_of_isCanonical h)]
  rfl

end Stm

/-! ## Pieces of a linear body -/

namespace Stm

/-- Control passes through a straight statement. -/
theorem turn_of_isStraight {V M : Type} (host : Host V M) {s : Stm} (h : s.isStraight = true)
    (w : World V M) : s.turn host w = (none, s.exec host w) := by
  cases s with
  | move | exp | seq => rfl
  | jump | cjump | label => cases h

theorem placed?_of_isStraight {s : Stm} (h : s.isStraight = true) : s.placed? = none := by
  cases s with
  | move | exp | seq => rfl
  | jump | cjump | label => cases h

/-- The plain statements of a straight statement are straight. -/
theorem isStraight_of_mem_linear {c : Stm} (h : c.isStraight = true) :
    ∀ t ∈ c.linear, t.isStraight = true := by
  intro t ht
  replace ht : t ∈ c.flatten := (mem_filter.mp ht).1
  induction c using flatten.induct with
  | case1 a b iha ihb =>
    rw [isStraight, Bool.and_eq_true] at h
    obtain ht | ht := mem_append.mp ht
    · exact iha h.1 ht
    · exact ihb h.2 ht
  | case2 c hseq =>
    rw [flatten, mem_singleton] at ht
    · exact ht ▸ h
    · exact hseq

/-- The last turn of a piece: that of its last statement, if that is not
straight. -/
def lastTurn {V M : Type} (host : Host V M) : Option Stm → World V M → Option Label × World V M
  | none, w => (none, w)
  | some c, w => c.turn host w

/-- The statement **renders as** a piece of straight statements and perhaps one
that is not: the piece does what the statement does, and takes the same turn.
Only a piece of its own places a label. -/
structure RendersAs (s : Session) (stm : Stm) (init : List Stm) (last : Option Stm) : Prop where
  straight : ∀ c ∈ init, c.isStraight = true
  placed : last.bind placed? = stm.placed?
  alone : stm.placed? ≠ none → init = []
  meaning : ∀ {V M : Type} (host : Host V M) {w u : World V M}, Agree s.Owns w u →
    SameResult s.Owns (stm.turn host w) (lastTurn host last (execAll host init u))

/-- The statement renders as the piece. -/
def Piece (s : Session) (stm : Stm) (piece : List Stm) : Prop :=
  ∃ init last, piece = init ++ last.toList ∧ stm.RendersAs s init last

variable {s a b : Session} {stm c : Stm}

theorem CanonicalAs.piece {lo hi : Nat} (h : stm.CanonicalAs s lo hi c)
    (hstraight : stm.isStraight = true) : stm.Piece s c.linear := by
  have hc : c.isStraight = true := h.effects.straight c mem_cons_self
  refine ⟨c.linear, none, (append_nil _).symm, isStraight_of_mem_linear hc,
    (placed?_of_isStraight hstraight).symm, fun hplaced => ?_, fun host w u hagree => ?_⟩
  · exact absurd (placed?_of_isStraight hstraight) hplaced
  · rw [turn_of_isStraight host hstraight, execAll_linear]
    exact ⟨rfl, h.meaning host hagree⟩

/-- A branch renders as the effects of its operands and a branch on their
values. -/
theorem piece_cjump {l r : Exp} {p q : Staged} {lo hi : Nat} (h : Operands s [l, r] lo hi [p, q])
    (rel : RelOp) (target : Label) :
    (Stm.cjump rel l r target).Piece s
      ((seqAll (p.effects ++ q.effects ++ [.cjump rel p.value q.value target])).linear) := by
  refine ⟨(p.effects ++ q.effects).flatMap linear, some (.cjump rel p.value q.value target), ?_,
    fun c hc => ?_, rfl, fun hplaced => absurd rfl hplaced, fun host w u hagree => ?_⟩
  · rw [linear_seqAll, flatMap_append, flatMap_singleton]
    rfl
  · obtain ⟨stm, hstm, hc⟩ := mem_flatMap.mp hc
    exact isStraight_of_mem_linear (h.pair_effects.straight stm hstm) c hc
  · obtain ⟨hl, hr, hworld⟩ := h.pair_meaning host hagree
    rw [execAll_flatMap_linear]
    show SameResult s.Owns (_, _) (_, _)
    rw [Exp.eval_snd_of_isPure (h.pure p.value (by simp)),
      Exp.eval_snd_of_isPure (h.pure q.value (by simp)), hl, hr]
    exact ⟨rfl, hworld⟩

/-- The linear form of a plain statement is a piece. -/
theorem piece_of_canonicalize (hd : stm.Disciplined s) (hle : s.tempCount ≤ a.tempCount)
    (hplain : ∀ x y, stm ≠ .seq x y) (h : Yields stm.canonicalize a c b) :
    a.tempCount ≤ b.tempCount ∧ c.isCanonical = true ∧ stm.Piece s c.linear := by
  cases stm with
  | move | exp =>
    have hstm := canonicalAs _ hd rfl hle h
    exact ⟨hstm.le, hstm.effects.canonical c mem_cons_self, hstm.piece rfl⟩
  | jump l =>
    rw [canonicalize, yields_pure] at h
    obtain ⟨rfl, rfl⟩ := h
    exact ⟨Nat.le_refl _, rfl, [], some (.jump l), rfl, by simp, rfl, fun _ => rfl,
      fun host w u hagree => ⟨rfl, hagree⟩⟩
  | label l =>
    rw [canonicalize, yields_pure] at h
    obtain ⟨rfl, rfl⟩ := h
    exact ⟨Nat.le_refl _, rfl, [], some (.label l), rfl, by simp, rfl, fun _ => rfl,
      fun host w u hagree => ⟨rfl, hagree⟩⟩
  | cjump rel l r target =>
    rw [Disciplined, nodes, Node.forall_mem_parts] at hd
    simp only [canonicalize_cjump, Exp.stagePure, yields_bind, yields_lift, yields_pure] at h
    obtain ⟨q₁, b₁, ⟨p₁, a₁, hp₁, hq₁⟩, q₂, b₂, ⟨p₂, a₂, hp₂, hq₂⟩, q, c', hq, rfl, rfl⟩ := h
    obtain ⟨hle', hops⟩ := Operands.pair hle (l.stagedAs hd.2.1 hle hp₁) hq₁
      (fun hle' => r.stagedAs hd.2.2 hle' hp₂) hq₂ (hd.1.undisturbed rfl) hq
    refine ⟨hle', isCanonical_seqAll ?_, piece_cjump hops rel target⟩
    rw [forall_mem_append, forall_mem_singleton, isCanonical,
      hops.pure q.value (by simp), hops.pure q₂.value (by simp)]
    exact ⟨hops.pair_effects.canonical, rfl⟩
  | seq x y => exact absurd rfl (hplain x y)

/-- **Linear forms are made of pieces**, one for each plain statement of the
tree. -/
theorem exists_pieces (hd : stm.Disciplined s) (hle : s.tempCount ≤ a.tempCount)
    (h : Yields stm.canonicalize a c b) :
    a.tempCount ≤ b.tempCount ∧ c.isCanonical = true ∧
      ∃ pieces, List.Forall₂ (Piece s) stm.flatten pieces ∧ c.linear = pieces.flatten := by
  induction stm using flatten.induct generalizing a b c with
  | case1 x y ihx ihy =>
    rw [Disciplined, nodes, Node.forall_mem_parts] at hd
    simp only [canonicalize_seq, yields_bind, yields_pure] at h
    obtain ⟨cx, u, hcx, cy, v, hcy, rfl, rfl⟩ := h
    obtain ⟨hlex, hx, piecesx, hpiecesx, hlinearx⟩ := ihx hd.2.1 hle hcx
    obtain ⟨hley, hy, piecesy, hpiecesy, hlineary⟩ := ihy hd.2.2 (Nat.le_trans hle hlex) hcy
    refine ⟨Nat.le_trans hlex hley, ?_, piecesx ++ piecesy, rel_append hpiecesx hpiecesy, ?_⟩
    · refine isCanonical_seqAll ?_
      rw [forall_mem_cons, forall_mem_singleton]
      exact ⟨hx, hy⟩
    · rw [linear_seqAll, flatten_append, ← hlinearx, ← hlineary]
      simp
  | case2 stm hplain =>
    obtain ⟨hle', hcanonical, hpiece⟩ := piece_of_canonicalize hd hle hplain h
    refine ⟨hle', hcanonical, [c.linear], ?_, by simp⟩
    rw [flatten]
    · exact .cons hpiece .nil
    · exact hplain

end Stm

/-! ## Runs -/

namespace Body

variable {V M : Type} {host : Host V M}

/-- A straight part of a body is run through. -/
theorem steps_straight {code init : List Stm} {k : Nat}
    (hcode : ∀ j < init.length, code[k + j]? = init[j]?)
    (hstraight : ∀ c ∈ init, c.isStraight = true) (u : World V M) :
    Relation.ReflTransGen (Step host code) ⟨.before k, u⟩
      ⟨.before (k + init.length), Stm.execAll host init u⟩ := by
  induction init generalizing k u with
  | nil => exact .refl
  | cons c init ih =>
    rw [forall_mem_cons] at hstraight
    have hfirst : code[k]? = some c := hcode 0 (Nat.succ_pos _)
    have hstep : Step host code ⟨.before k, u⟩ ⟨.before (k + 1), c.exec host u⟩ := by
      rw [Step, step?, hfirst, Option.map_some, Stm.turn_of_isStraight host hstraight.1]
      rfl
    have hrest := ih (k := k + 1) (fun j hj => ?_) hstraight.2 (c.exec host u)
    · rw [Nat.add_right_comm] at hrest
      exact .head hstep hrest
    · rw [Nat.add_right_comm, Nat.add_assoc, hcode (j + 1) (Nat.succ_lt_succ hj)]
      rfl

section Pieces

variable {s : Session} {body : List Stm} {pieces : List (List Stm)}

/-- A label stands where its piece starts. -/
theorem place?_pieces (h : List.Forall₂ (Stm.Piece s) body pieces) (l : Label) :
    place? pieces.flatten l = (place? body l).map (start pieces) := by
  refine findIdx?_flatten (h.imp fun stm piece hpiece => ?_)
  obtain ⟨init, last, rfl, hrenders⟩ := hpiece
  refine ⟨fun hplaced => ?_, fun hplaced c hc => ?_⟩
  · -- a label has its piece to itself
    have hlabel : stm.placed? = some l := of_decide_eq_true hplaced
    obtain rfl := hrenders.alone (by rw [hlabel]; exact Option.some_ne_none l)
    obtain ⟨c, rfl, hc⟩ := Option.bind_eq_some_iff.mp (hrenders.placed.trans hlabel)
    exact ⟨c, [], rfl, decide_eq_true hc⟩
  · refine decide_eq_false fun hlabel => of_decide_eq_false hplaced ?_
    obtain hc | hc := mem_append.mp hc
    · rw [Stm.placed?_of_isStraight (hrenders.straight c hc)] at hlabel
      cases hlabel
    · rw [Option.mem_toList] at hc
      rw [← hrenders.placed, hc]
      exact hlabel

/-- The place among the pieces for a place in the body. -/
def startIn (pieces : List (List Stm)) : Control → Control
  | .before index => .before (start pieces index)
  | .away l => .away l

theorem landing_pieces (h : List.Forall₂ (Stm.Piece s) body pieces) (l : Label) :
    landing pieces.flatten l = startIn pieces (landing body l) := by
  unfold landing
  rw [place?_pieces h]
  cases place? body l with
  | none | some => rfl

/-- Both bodies at work: the one at the start of a piece where the other is at
the piece's statement. -/
structure Matches (s : Session) (body : List Stm) (pieces : List (List Stm)) (c d : State V M) :
    Prop where
  control : d.control = startIn pieces c.control
  inside : ∀ index, c.control = .before index → index ≤ body.length
  world : Agree s.Owns c.world d.world

/-- **A piece is run through** as its statement is, from its start to where
control goes on. -/
theorem step_piece (host : Host V M) (h : List.Forall₂ (Stm.Piece s) body pieces) {k : Nat}
    {stm : Stm} (hk : body[k]? = some stm) {w u : World V M} (hagree : Agree s.Owns w u) :
    ∃ u', Agree s.Owns (stm.turn host w).2 u' ∧ (Relation.TransGen (Step host pieces.flatten)
          ⟨.before (start pieces k), u⟩ ⟨startIn pieces (onward body k (stm.turn host w).1), u'⟩ ∨
        u' = u ∧ (stm.turn host w).1 = none ∧ start pieces (k + 1) = start pieces k) := by
  obtain ⟨piece, hpiece, init, last, rfl, hrenders⟩ := exists_piece h hk
  have hsame := hrenders.meaning host hagree
  have hinit : Relation.ReflTransGen (Step host pieces.flatten) ⟨.before (start pieces k), u⟩
      ⟨.before (start pieces k + init.length), Stm.execAll host init u⟩ := by
    refine steps_straight (fun j hj => ?_) hrenders.straight u
    rw [getElem?_flatten_start hpiece (by rw [length_append]; omega), List.getElem?_append_left hj]
  -- a piece without a last statement may be empty, and then nothing is run
  cases last with
  | none =>
    refine ⟨Stm.execAll host init u, hsame.world, ?_⟩
    have hnext : (stm.turn host w).1 = none := hsame.value.symm
    have hstart : start pieces (k + 1) = start pieces k + init.length := by
      rw [start_succ hpiece, length_append]
      rfl
    obtain heq | htrans := Relation.reflTransGen_iff_eq_or_transGen.mp hinit
    · -- nothing is left of the statement
      obtain ⟨hcontrol, hworld⟩ := State.mk.inj heq
      exact .inr ⟨hworld, hnext, by rw [hstart]; exact Control.before.inj hcontrol⟩
    · left
      rw [hnext]
      show Relation.TransGen _ _ (State.mk (.before (start pieces (k + 1))) _)
      rw [hstart]
      exact htrans
  | some c =>
    refine ⟨_, hsame.world, .inl (Relation.TransGen.tail' hinit ?_)⟩
    have hlast : pieces.flatten[start pieces k + init.length]? = some c := by
      rw [getElem?_flatten_start hpiece (by simp), List.getElem?_append_right (Nat.le_refl _),
        Nat.sub_self]
      rfl
    rw [Step, step?, hlast, Option.map_some, ← hsame.value]
    refine congrArg (fun control => some (State.mk control _)) ?_
    show onward pieces.flatten _ (c.turn host (Stm.execAll host init u)).1
      = startIn pieces (onward body k (c.turn host (Stm.execAll host init u)).1)
    cases (c.turn host (Stm.execAll host init u)).1 with
    | none =>
      show Control.before _ = .before (start pieces (k + 1))
      rw [start_succ hpiece, length_append]
      rfl
    | some l => exact landing_pieces h l

/-- **Simulation.** The pieces of a body simulate it. -/
theorem simulation (h : List.Forall₂ (Stm.Piece s) body pieces) (host : Host V M) :
    Simulation (Step host body) (Step host pieces.flatten) (Matches s body pieces)
      (remaining body) where
  unique h h' := Option.some.inj (h.symm.trans h')
  stop := by
    rintro ⟨control, w⟩ ⟨control', u⟩ hmatches hstop d hstep
    obtain rfl := hmatches.control
    cases control with
    | away l => cases hstep
    | before index =>
      obtain rfl := Nat.le_antisymm (hmatches.inside index rfl) (length_le_of_stop hstop)
      obtain ⟨c, hc, _⟩ := Option.map_eq_some_iff.mp hstep
      rw [h.length_eq, start_length, List.getElem?_eq_none (Nat.le_refl _)] at hc
      cases hc
  step := by
    rintro ⟨control, w⟩ ⟨control', u⟩ c' hmatches hstep
    obtain rfl := hmatches.control
    cases control with
    | away l => cases hstep
    | before index =>
      obtain ⟨stm, hstm, rfl⟩ := Option.map_eq_some_iff.mp hstep
      have hlt : index < body.length := (List.getElem?_eq_some_iff.mp hstm).1
      obtain ⟨u', hagree, htrans | ⟨rfl, hnext, hstart⟩⟩ := step_piece host h hstm hmatches.world
      · exact .inl ⟨_, htrans, rfl, inside_onward hlt _, hagree⟩
      · refine .inr ⟨⟨?_, inside_onward hlt _, hagree⟩, ?_⟩
        · show Control.before _ = startIn pieces (onward body index (stm.turn host w).1)
          rw [hnext, ← hstart]
          rfl
        · show (match onward body index (stm.turn host w).1 with
            | .before index => body.length - index
            | .away _ => 0) < body.length - index
          rw [hnext]
          exact Nat.sub_succ_lt_self _ _ hlt

theorem Matches.refl_start (s : Session) (body : List Stm) (pieces : List (List Stm))
    (w : World V M) : Matches s body pieces ⟨.before 0, w⟩ ⟨.before 0, w⟩ where
  control := rfl
  inside _ hindex := Control.before.inj hindex ▸ Nat.zero_le _
  world := .refl w

theorem startIn_end (h : List.Forall₂ (Stm.Piece s) body pieces) (exit : Option Label) :
    startIn pieces (exit.elim (.before body.length) .away)
      = exit.elim (.before pieces.flatten.length) .away := by
  cases exit with
  | none =>
    show Control.before (start pieces body.length) = .before pieces.flatten.length
    rw [h.length_eq, start_length]
  | some l => rfl

theorem ends_pieces (h : List.Forall₂ (Stm.Piece s) body pieces) {w w' : World V M}
    {exit : Option Label} (hends : Ends host body w exit w') :
    ∃ u', Ends host pieces.flatten w exit u' ∧ Agree s.Owns w' u' := by
  obtain ⟨⟨control, u'⟩, hsteps, hmatches⟩ :=
    (simulation h host).forward (.refl_start s body pieces w) hends
  obtain rfl := hmatches.control.trans (startIn_end h exit)
  exact ⟨u', hsteps, hmatches.world⟩

theorem ends_of_pieces (h : List.Forall₂ (Stm.Piece s) body pieces) {w u' : World V M}
    {exit : Option Label} (hends : Ends host pieces.flatten w exit u') :
    ∃ w', Ends host body w exit w' ∧ Agree s.Owns w' u' := by
  have hend : ∀ d, ¬ Step host pieces.flatten
      ⟨exit.elim (.before pieces.flatten.length) .away, u'⟩ d := by
    intro d hstep
    cases exit with
    | none =>
      obtain ⟨c, hc, _⟩ := Option.map_eq_some_iff.mp hstep
      rw [List.getElem?_eq_none (Nat.le_refl _)] at hc
      cases hc
    | some l => cases hstep
  obtain ⟨⟨control, w'⟩, hsteps, hstop, hmatches⟩ :=
    (simulation h host).ends (.refl_start s body pieces w) hends hend
  refine ⟨w', ?_, hmatches.world⟩
  suffices heq : control = exit.elim (.before body.length) .away by
    rw [heq] at hsteps
    exact hsteps
  have hcontrol := hmatches.control
  cases control with
  | away l =>
    cases exit with
    | none => cases hcontrol
    | some l' => exact hcontrol.symm
  | before index =>
    -- the body has come to its end
    obtain rfl := Nat.le_antisymm (hmatches.inside index rfl) (length_le_of_stop hstop)
    cases exit with
    | none => rfl
    | some l => cases hcontrol

theorem calls_pieces (h : List.Forall₂ (Stm.Piece s) body pieces) (w : World V M)
    (trace : List (V × List V)) :
    Calls host body w trace ↔ Calls host pieces.flatten w trace := by
  constructor
  · rintro ⟨c, hsteps, hprefix⟩
    obtain ⟨d, hsteps', hmatches⟩ :=
      (simulation h host).forward (.refl_start s body pieces w) hsteps
    exact ⟨d, hsteps', hmatches.world.calls ▸ hprefix⟩
  · rintro ⟨d, hsteps, hprefix⟩
    obtain ⟨c, d', hsteps', hrest, hmatches⟩ :=
      (simulation h host).backward (.refl_start s body pieces w) hsteps
    refine ⟨c, hsteps', ?_⟩
    rw [← hmatches.world.calls]
    exact hprefix.trans (calls_of_steps hrest)

end Pieces

end Body

/-- **Canonical linear bodies run as their trees.** A disciplined tree that has a
canonical form has a linear form, and under every host, from every world, its
plain statements and the linear form

* end alike – past the last statement, or by leaving for the same label – or
  both go on for ever;
* where they end, leave the same memory and the same temps of the session, and
  have made the same calls with the same arguments;
* make the same calls, in the same order, also if they do not end. -/
theorem Stm.canonicalize_preserves_runs {s s' : Session} {stm c : Stm} (hd : stm.Disciplined s)
    (h : stm.canonicalize.run.run s = (.ok c, s')) :
    ∃ code, c.linearize = .ok code ∧ ∀ {V M : Type} (host : Host V M) (w : World V M),
      (∀ exit w', Body.Ends host stm.flatten w exit w' →
        ∃ u', Body.Ends host code w exit u' ∧ Agree s.Owns w' u') ∧
      (∀ exit u', Body.Ends host code w exit u' →
        ∃ w', Body.Ends host stm.flatten w exit w' ∧ Agree s.Owns w' u') ∧
      ∀ trace, Body.Calls host stm.flatten w trace ↔ Body.Calls host code w trace := by
  obtain ⟨_, hcanonical, pieces, hpieces, hlinear⟩ := exists_pieces hd (Nat.le_refl _) h
  refine ⟨c.linear, linearize_of_isCanonical hcanonical, fun {V M} host w => ?_⟩
  rw [hlinear]
  exact ⟨fun exit w' => Body.ends_pieces hpieces, fun exit u' => Body.ends_of_pieces hpieces,
    Body.calls_pieces hpieces w⟩

/-- A loop that reads a number, adds to it what it finds in memory, and goes on
below a limit. The sum on the left has to be held while the number is read. -/
def readLoop : Stm :=
  let sum : Temp := ⟨7, .plain "sum"⟩
  let item : Temp := ⟨8, .plain "item"⟩
  let read : Temp := ⟨9, .plain "read"⟩
  .seq (.label ⟨"loop"⟩) <|
  .seq (.move (.temp sum) (.plus (.plus (.mem (.temp item)) (.const 1))
    (.eseq (.move (.temp read) (.call (.name ⟨"read"⟩) [.temp sum])) (.temp read)))) <|
  .cjump .lt (.temp sum) (.call (.name ⟨"limit"⟩) []) ⟨"loop"⟩

theorem Stm.canonicalize_preserves_runs_readLoop :
    readLoop.Disciplined (.ofTemps ["sum", "item", "read"]) ∧ ∃ c s',
      readLoop.canonicalize.run.run (.ofTemps ["sum", "item", "read"]) = (.ok c, s') ∧
      ∃ code, c.linearize = .ok code ∧ ∀ {V M : Type} (host : Host V M) (w : World V M),
        (∀ exit w', Body.Ends host readLoop.flatten w exit w' →
          ∃ u', Body.Ends host code w exit u' ∧
            Agree (Session.Owns (.ofTemps ["sum", "item", "read"])) w' u') ∧
        (∀ exit u', Body.Ends host code w exit u' →
          ∃ w', Body.Ends host readLoop.flatten w exit w' ∧
            Agree (Session.Owns (.ofTemps ["sum", "item", "read"])) w' u') ∧
        ∀ trace, Body.Calls host readLoop.flatten w trace ↔ Body.Calls host code w trace := by
  obtain ⟨c, s', h⟩ : ∃ c s', Yields readLoop.canonicalize (.ofTemps ["sum", "item", "read"]) c s' :=
    exists_yields_of_isOk (by decide +kernel)
  exact ⟨by decide, c, s', h, canonicalize_preserves_runs (by decide) h⟩

end TreeBackend
