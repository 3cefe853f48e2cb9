import TreeBackend.Method
import TreeBackend.Proofs.BlockLayout
import TreeBackend.Proofs.CanonicalReach
import TreeBackend.Proofs.SelectedFootprints
import TreeBackend.Proofs.SpillRounds

/-!
# Stages that never fail

Compiling a method can be refused in two places: canonicalization refuses a move
into something that is not a temp or a word, and reblocking refuses a label that
is placed twice or jumped to and not placed (`CompiledMethod.Rejects`). What gets
past them is a body of plain, canonical statements whose jumps are resolved.
Linearization, selection, the analysis that finds the entry, and the analyses of
all spill rounds succeed on those, so a method that is not rejected is compiled
(`CompiledMethod.ofText_fails_iff`).
-/

namespace TreeBackend

open List Footprint

variable {code : List Instruction} {e : Error} {current : List Stm}

/-! ## Reblocked bodies -/

/-- The statements of a trim statement are plain and canonical. -/
theorem Stm.selectable_of_isTrim {c : Stm} (h : c.isTrim = true) : Body.Selectable c.linear := by
  intro stm hstm
  cases c with
  | seq a b =>
    rw [isTrim, Bool.and_eq_true] at h
    rw [linear_seq, mem_append] at hstm
    exact hstm.elim (selectable_of_isTrim h.1 stm) (selectable_of_isTrim h.2 stm)
  | move dst src =>
    obtain rfl := mem_singleton.mp (mem_of_mem_filter hstm)
    refine ⟨?_, isCanonical_of_isTrim h⟩
    cases dst with
    | temp | mem => rfl
    | const | name | binop | not | call | eseq => cases h
  | exp | jump | cjump | label =>
    obtain rfl := mem_singleton.mp (mem_of_mem_filter hstm)
    exact ⟨rfl, isCanonical_of_isTrim h⟩

/-- A canonical form can be selected. -/
theorem Stm.selectable_linear {stm c : Stm} {a b : Session} (h : Yields stm.canonicalize a c b) :
    Body.Selectable c.linear := by
  obtain rfl | htrim := (stm.hasForm h).normal
  · exact forall_mem_nil _
  · exact selectable_of_isTrim htrim

namespace Block

variable {P : Stm → Prop}

variable {stms out : List Stm} {s s' : Session} {blocks : List Block}

/-- Blocks are made of the statements of the body, and of jumps and labels. -/
theorem Cuts.forall_mem {t : Session} (h : Cuts current stms s blocks t) (hjump : ∀ l, P (.jump l))
    (hlabel : ∀ l, P (.label l)) (hcurrent : ∀ stm ∈ current, P stm) (hstms : ∀ stm ∈ stms, P stm) :
    ∀ b ∈ blocks, ∀ stm ∈ b.stms, P stm := by
  have hbridge (stm : Stm) (next : Label) : ∀ x ∈ bridge stm next, P x := by
    intro x hx
    cases stm with
    | cjump => exact mem_singleton.mp hx ▸ hjump next
    | move | exp | jump | label | seq => cases hx
  induction h with
  | nil => exact forall_mem_nil _
  | last => exact forall_mem_singleton.mpr hcurrent
  | start _ ih => exact ih (forall_mem_singleton.mpr (hlabel _)) (forall_mem_cons.mp hstms).2
  | label _ _ ih =>
    exact forall_mem_cons.mpr ⟨forall_mem_append.mpr ⟨hcurrent, forall_mem_singleton.mpr (hjump _)⟩,
        ih (forall_mem_singleton.mpr (hlabel _)) (forall_mem_cons.mp hstms).2⟩
  | exit => exact forall_mem_singleton.mpr (forall_mem_append.mpr ⟨hcurrent, hstms⟩)
  | before _ _ ih =>
    rw [forall_mem_cons] at hstms
    exact forall_mem_cons.mpr ⟨forall_mem_append.mpr ⟨hcurrent,
      forall_mem_cons.mpr ⟨hstms.1, hbridge _ _⟩⟩, ih (forall_mem_nil _) hstms.2⟩
  | between _ _ _ _ ih =>
    rw [forall_mem_cons] at hstms
    exact forall_mem_cons.mpr ⟨forall_mem_append.mpr ⟨hcurrent,
      forall_mem_cons.mpr ⟨hstms.1, hbridge _ _⟩⟩,
      ih (forall_mem_singleton.mpr (hlabel _)) hstms.2⟩
  | plain _ _ _ ih =>
    rw [forall_mem_cons] at hstms
    exact ih (forall_mem_append.mpr ⟨hcurrent, forall_mem_singleton.mpr hstms.1⟩) hstms.2

/-- Cutting a body does to the session what drawing fresh labels does, one after the
other. -/
theorem Cuts.draws {t : Session} (h : Cuts current stms s blocks t) {R : Session → Session → Prop}
    (refl : ∀ s, R s s) (trans : ∀ {a b c}, R a b → R b c → R a c)
    (draw : ∀ s, R s (Session.freshLabel.run s).2) : R s t := by
  induction h with
  | nil | last | exit => exact refl _
  | start _ ih | label _ _ ih | before _ _ ih | plain _ _ _ ih => exact ih
  | @between _ _ _ _ _ s _ _ _ _ _ hfresh _ ih =>
    have hdraw := draw s
    rw [hfresh] at hdraw
    exact trans hdraw ih

theorem cutFrom_continues (current stms : List Stm) (s : Session) :
    s.Continues ((cutFrom current stms).run s).2 :=
  (cuts_cutFrom current stms s).draws .refl .trans Session.continues_freshLabel

theorem tempCount_cutFrom (current stms : List Stm) (s : Session) :
    ((cutFrom current stms).run s).2.tempCount = s.tempCount := by
  refine (cuts_cutFrom current stms s).draws (R := fun a b => b.tempCount = a.tempCount)
    (fun _ => rfl) (fun h h' => h'.trans h) fun u => ?_
  obtain ⟨l, u', hrun, -, -, hcount, -⟩ := Session.run_freshLabel u
  rw [hrun]
  exact hcount

theorem withoutFallthrough_sublist (b : Block) (next? : Option Label) :
    (b.withoutFallthrough next?).Sublist b.stms := by
  unfold withoutFallthrough
  split
  · split
    · exact dropLast_sublist _
    · exact .refl _
  · exact .refl _

theorem mem_of_mem_join {stm : Stm} (h : stm ∈ join blocks) : ∃ b ∈ blocks, stm ∈ b.stms := by
  induction blocks with
  | nil => cases h
  | cons b rest ih =>
    rw [join, mem_append] at h
    obtain h | h := h
    · exact ⟨b, mem_cons_self, (withoutFallthrough_sublist b _).subset h⟩
    · obtain ⟨b', hb', hstm⟩ := ih h
      exact ⟨b', mem_cons_of_mem _ hb', hstm⟩

/-- What reblocking lets through, it has checked. -/
theorem of_reblock {pick : List Label → Option Label} (h : Yields (reblockBy pick stms) s out s') :
    (∃ blocks, blocks = ((cut stms).run s).1 ∧ out = layout blocks) ∧ s' = ((cut stms).run s).2 ∧
      checkTargetsBy pick out = .ok () := by
  simp only [reblockBy, yields_bind, yields_lift, yields_liftExcept, yields_pure] at h
  obtain ⟨blocks, u, hcut, _, u', ⟨hcheck, rfl⟩, rfl, rfl⟩ := h
  rw [hcut]
  exact ⟨⟨blocks, rfl, rfl⟩, rfl, hcheck⟩

/-- A reblocked body is made of the statements of the body, and of jumps and labels. -/
theorem forall_mem_reblock (hjump : ∀ l, P (.jump l)) (hlabel : ∀ l, P (.label l))
    (hstms : ∀ stm ∈ stms, P stm) (h : Yields (reblock stms) s out s') : ∀ stm ∈ out, P stm := by
  obtain ⟨⟨blocks, hblocks, hout⟩, -, -⟩ := of_reblock h
  intro stm hstm
  rw [hout] at hstm
  obtain ⟨b, hb, hstm⟩ := mem_of_mem_join (mem_of_mem_filter hstm)
  rw [hblocks] at hb
  exact (cuts_cutFrom [] stms s).forall_mem hjump hlabel (forall_mem_nil _) hstms b hb stm hstm

/-- **A reblocked body** can be selected if the body can, and its jumps are
resolved. -/
theorem reblock_selectable (hstms : Body.Selectable stms) (h : Yields (reblock stms) s out s') :
    Body.Selectable out ∧ Resolved (out.map Stm.footprint) ∧ s.Continues s' := by
  obtain ⟨-, rfl, hcheck⟩ := of_reblock h
  exact ⟨forall_mem_reblock (P := fun stm => stm.isPlain = true ∧ stm.isCanonical = true)
    (fun _ => ⟨rfl, rfl⟩) (fun _ => ⟨rfl, rfl⟩) hstms h, resolved_of_checkTargets hcheck,
    cutFrom_continues [] stms s⟩

end Block

/-! ## From blocks to registers -/

theorem Liveness.drawsTemps_analyze {l : Liveness} {s s' : Session}
    (h : Yields (analyze code) s l s') : s.DrawsTemps s' := by
  simp only [analyze, yields_bind, yields_liftExcept, yields_lift, yields_pure] at h
  obtain ⟨flow, u, ⟨-, rfl⟩, _, u', hcount, rfl, rfl⟩ := h
  obtain ⟨-, rfl⟩ := Prod.mk.inj hcount
  exact ⟨Nat.le_refl _, rfl, rfl⟩

/-- The code of a method has the labels and the jumps of its body. -/
theorem Body.TracedBy.resolved {body : List Stm} {is : List Instruction}
    (h : Body.TracedBy body is) (hbody : Resolved (body.map Stm.footprint))
    (entry exit : List Temp) :
    Resolved ((Instruction.enter entry :: (is ++ [.ret exit])).map Instruction.footprint) := by
  refine hbody.congr ?_ ?_
  · rw [map_cons, labels_cons, map_append, Footprint.labels_append, h.labels]
    exact append_nil _
  · rw [map_cons, jumps_cons, map_append, jumps_append, h.jumps]
    exact append_nil _

namespace CompiledMethod

/-- The entry of resolved code can be inferred. -/
theorem exists_inferEntry {code : Code}
    (h : Resolved (code.instructions.map Instruction.footprint)) (s : Session) :
    ∃ code' s', Yields (inferEntry code) s code' s' ∧
      SameJumps code.instructions code'.instructions ∧ s.DrawsTemps s' := by
  obtain ⟨l, s', hl⟩ := Liveness.exists_analyze_iff.mpr h
  have hdraws := Liveness.drawsTemps_analyze hl
  unfold inferEntry
  cases hcode : code.instructions with
  | nil => exact ⟨code, s', yields_bind.mpr ⟨l, s', hcode ▸ hl, rfl⟩, hcode ▸ .refl _, hdraws⟩
  | cons first rest =>
    exact ⟨_, s', yields_bind.mpr ⟨l, s', hcode ▸ hl, rfl⟩, .cons rfl rfl (.refl rest), hdraws⟩

/-- A resolved body is selected to resolved code. -/
theorem exists_ofMethod {body : List Stm} (h : Body.Selectable body)
    (hbody : Resolved (body.map Stm.footprint)) (entry exit : List Temp) (s : Session) :
    ∃ code s', Yields (Selection.ofMethod body entry exit) s code s' ∧
      Resolved (code.instructions.map Instruction.footprint) ∧ s.DrawsTemps s' := by
  obtain ⟨code, s', is, hyields, hcode, hdraws, htraced, -⟩ :=
    Selection.ofMethod_traces h entry exit s
  exact ⟨code, s', hyields, hcode ▸ htraced.resolved hbody entry exit, hdraws⟩

theorem exists_selectBody {body : List Stm} (h : Body.Selectable body)
    (hbody : Resolved (body.map Stm.footprint)) (boundary : Boundary) (s : Session) :
    ∃ code s', Yields (selectBody body boundary) s code s' ∧
      Resolved (code.instructions.map Instruction.footprint) ∧ s.DrawsTemps s' := by
  unfold selectBody
  cases boundary.entry? with
  | some entry => exact exists_ofMethod h hbody entry boundary.exit s
  | none =>
    obtain ⟨code, s₁, hcode, hresolved, hdraws⟩ := exists_ofMethod h hbody [] boundary.exit s
    obtain ⟨code', s₂, hcode', hjumps, hdraws'⟩ := exists_inferEntry hresolved s₁
    exact ⟨code', s₂, yields_bind.mpr ⟨code, s₁, hcode, hcode'⟩, hjumps.resolved hresolved,
      hdraws.trans hdraws'⟩

theorem exists_allocate (h : Resolved (code.map Instruction.footprint)) (frame : Frame)
    (s : Session) : ∃ r s', Yields (allocate code frame) s r s' := by
  obtain ⟨_, q, t, round, u, -, -, -, hyields⟩ := Allocation.exists_iterate
    s.config.registers s.config.maxSpillRounds (p := { instructions := code, frame }) (s := s) h
  exact ⟨_, _, yields_bind.mpr ⟨s, s, rfl, hyields⟩⟩

/-! ## Methods that are rejected -/

/-- The tree of a method is **rejected**: it has no canonical form, or the linear
form of its canonical form cannot be reblocked. -/
inductive Rejects (body : Stm) (s : Session) (e : Error) : Prop
  | canonicalize (h : FailsWith body.canonicalize s e)
  | reblock {c : Stm} {u : Session} {linear : List Stm} (canonical : Yields body.canonicalize s c u)
      (linearized : c.linearize = .ok linear)
      (h : FailsWith (Block.reblock linear)
        { u with stats := u.stats.addStatements linear.length } e)

variable {strict : Bool} {name : String} {body : Stm} {frame : Frame} {boundary : Boundary}
  {s : Session}

/-- A rejected tree is not compiled. -/
theorem Rejects.failsWith (h : Rejects body s e) :
    FailsWith (compile strict name body frame boundary) s e := by
  unfold compile
  cases h with
  | canonicalize h => exact failsWith_bind.mpr (.inl h)
  | reblock canonical linearized h =>
    rw [canonical.failsWith_bind_iff, (yields_liftExcept.mpr ⟨linearized, rfl⟩).failsWith_bind_iff,
      (Session.yields_count _ _).failsWith_bind_iff]
    exact failsWith_bind.mpr (.inl h)

/-- A tree is rejected, or it is reblocked. -/
theorem rejects_or_reblock (body : Stm) (s : Session) :
    (∃ e, Rejects body s e) ∨ ∃ c u out v, Yields body.canonicalize s c u ∧
      c.linearize = .ok c.linear ∧ Yields (Block.reblock c.linear)
        { u with stats := u.stats.addStatements c.linear.length } out v := by
  obtain ⟨c, u, hc⟩ | ⟨e, he⟩ := yields_or_failsWith body.canonicalize s
  · have hlinear := Stm.linearize_of_isCanonical (body.hasForm hc).canonical
    obtain ⟨out, v, hout⟩ | ⟨e, he⟩ := yields_or_failsWith (Block.reblock c.linear)
      { u with stats := u.stats.addStatements c.linear.length }
    · exact .inr ⟨c, u, out, v, hc, hlinear, hout⟩
    · exact .inl ⟨e, .reblock hc hlinear he⟩
  · exact .inl ⟨e, .canonicalize he⟩

/-- **What is reblocked is compiled**, and with `strict` an error of its allocation
is the only one. -/
theorem exists_compile (name : String) (frame : Frame) (boundary : Boundary) {c : Stm}
    {u v : Session} {out : List Stm}
    (hc : Yields body.canonicalize s c u) (hout : Yields (Block.reblock c.linear)
      { u with stats := u.stats.addStatements c.linear.length } out v) :
    ∃ m s', Yields (compile false name body frame boundary) s m s' ∧ ∀ e,
      FailsWith (compile true name body frame boundary) s e ↔
        m.allocation.error? name = some e := by
  have hlinear := Stm.linearize_of_isCanonical (body.hasForm hc).canonical
  obtain ⟨hselectable, hresolved, -⟩ := Block.reblock_selectable (Stm.selectable_linear hc) hout
  obtain ⟨code, w, hcode, hresolved', -⟩ := exists_selectBody hselectable hresolved boundary v
  obtain ⟨⟨allocation, frame'⟩, w', halloc⟩ := exists_allocate hresolved' frame w
  let m : CompiledMethod :=
    { name, canonical := c, linear := c.linear, reblocked := out, code, allocation,
      frame := frame' }
  refine ⟨m, { w' with stats := w'.stats.addMethod name code.instructions.length }, ?_, fun e => ?_⟩
  · exact yields_bind.mpr ⟨c, u, hc, yields_bind.mpr ⟨c.linear, u,
      yields_liftExcept.mpr ⟨hlinear, rfl⟩, yields_bind.mpr ⟨(), _, Session.yields_count _ u,
      yields_bind.mpr ⟨out, v, hout, yields_bind.mpr ⟨code, w, hcode, yields_bind.mpr
      ⟨(allocation, frame'), w', halloc, rfl⟩⟩⟩⟩⟩⟩
  · rw [compile, hc.failsWith_bind_iff, (yields_liftExcept.mpr ⟨hlinear, rfl⟩).failsWith_bind_iff,
      (Session.yields_count _ _).failsWith_bind_iff, hout.failsWith_bind_iff,
      hcode.failsWith_bind_iff, halloc.failsWith_bind_iff]
    dsimp only [m]
    rw [if_pos rfl]
    cases allocation.error? name with
    | none =>
      simp only [(Session.yields_count _ _).failsWith_bind_iff, not_failsWith_pure, reduceCtorEq]
    | some error => simp

/-- **Compiling fails** as canonicalization and reblocking do, and with `strict` in
one more way: the allocation leaves temps over. -/
theorem failsWith_compile :
    FailsWith (compile strict name body frame boundary) s e ↔ Rejects body s e ∨
      (strict = true ∧ ∃ m s', Yields (compile false name body frame boundary) s m s' ∧
        m.allocation.error? name = some e) := by
  obtain ⟨e', he'⟩ | ⟨c, u, out, v, hc, -, hout⟩ := rejects_or_reblock body s
  · constructor
    · intro h
      exact .inl (h.unique he'.failsWith ▸ he')
    · rintro (h | ⟨-, m, s', hm, -⟩)
      · exact h.failsWith
      · exact absurd he'.failsWith hm.not_failsWith
  · obtain ⟨m, s', hm, herror⟩ := exists_compile name frame boundary hc hout
    cases strict with
    | false =>
      refine ⟨fun h => absurd h hm.not_failsWith, ?_⟩
      rintro (h | ⟨h, -⟩)
      · exact h.failsWith
      · cases h
    | true =>
      refine ⟨fun h => .inr ⟨rfl, m, s', hm, (herror e).mp h⟩, ?_⟩
      rintro (h | ⟨-, m', s'', hm', he⟩)
      · exact h.failsWith
      · obtain ⟨rfl, -⟩ := hm.unique hm'
        exact (herror e).mpr he

theorem yields_checkConfig (h : s.config.Valid) : Yields checkConfig s () s := by
  have hfault : s.config.fault? = none := Config.fault?_eq_none_iff.mpr h
  refine yields_bind.mpr ⟨s, s, rfl, ?_⟩
  rw [hfault]
  rfl

theorem of_checkConfig {s' : Session} (h : Yields checkConfig s () s') :
    s.config.Valid ∧ s' = s := by
  obtain ⟨_, _, hget, h⟩ := yields_bind.mp h
  obtain ⟨rfl, rfl⟩ := Prod.mk.inj hget |>.imp_left Except.ok.inj
  split at h
  · exact absurd h not_yields_throw
  · next hfault => exact ⟨Config.fault?_eq_none_iff.mp hfault, (yields_pure.mp h).2.symm⟩

theorem error?_eq_some_iff {a : Allocation} :
    a.error? name = some e ↔ ∃ rounds uncolored, a.status = .exceeded rounds uncolored ∧
      e = .unallocated name rounds uncolored.length := by
  unfold Allocation.error?
  cases a.status with
  | converged => simp
  | exceeded rounds uncolored =>
    constructor
    · rintro ⟨⟩
      exact ⟨rounds, uncolored, rfl, rfl⟩
    · rintro ⟨_, _, ⟨⟩, rfl⟩
      rfl

/-- **Only canonicalization and reblocking reject a method.** Take any method and a
session with a valid configuration.

* Compiling the method fails if and only if its tree has no canonical form, or
  the linear form of the canonical form cannot be reblocked, and with that error.
* With `strict` there is one more failure: the allocation leaves temps over.
* Every canonical form has a linear form. Once it is reblocked, its code is
  selected, the entry of the code is inferred, and no matter how many rounds of
  spilling the code has been through, its live sets can be found. -/
theorem ofText_fails_iff (m : Text.MethodText) {s start : Session} {frame : Frame}
    (hconfig : s.config.Valid) (hframe : (Frame.new m.name).run s = (frame, start)) :
    (∀ e, FailsWith (ofText false m) s e ↔ Rejects m.body start e) ∧
    (∀ e, FailsWith (ofText true m) s e ↔ Rejects m.body start e ∨
      ∃ c s', Yields (ofText false m) s c s' ∧ ∃ rounds uncolored,
        c.allocation.status = .exceeded rounds uncolored ∧
          e = .unallocated m.name rounds uncolored.length) ∧
    ∀ c u, Yields m.body.canonicalize start c u → c.linearize = .ok c.linear ∧
      ∀ out v, Yields (Block.reblock c.linear)
          { u with stats := u.stats.addStatements c.linear.length } out v →
        ∃ code w code' w', Yields (Selection.ofMethod out [] (m.temp? resultName).toList) v code w ∧
          Yields (inferEntry code) w code' w' ∧
          ∀ bound q t, Allocation.Rounds s.config.registers s.config.maxSpillRounds
              { instructions := code'.instructions, frame } w' bound q t →
            ∃ l t', Yields (Liveness.analyze q.instructions) t l t' := by
  have hfails (strict : Bool) (e : Error) : FailsWith (ofText strict m) s e ↔
      FailsWith (compile strict m.name m.body frame ⟨none, (m.temp? resultName).toList⟩) start
        e := by
    rw [ofText, (yields_checkConfig hconfig).failsWith_bind_iff,
      (yields_lift.mpr hframe).failsWith_bind_iff]
  have hyields (c : CompiledMethod) (s' : Session) : Yields (ofText false m) s c s' ↔
      Yields (compile false m.name m.body frame ⟨none, (m.temp? resultName).toList⟩) start c
        s' := by
    rw [ofText, (yields_checkConfig hconfig).bind_iff, (yields_lift.mpr hframe).bind_iff]
  refine ⟨fun e => ?_, fun e => ?_, fun c u hc => ⟨?_, fun out v hout => ?_⟩⟩
  · simp [hfails, failsWith_compile]
  · simp only [hfails, failsWith_compile, hyields, error?_eq_some_iff, true_and]
  · exact Stm.linearize_of_isCanonical (m.body.hasForm hc).canonical
  · obtain ⟨hselectable, hresolved, -⟩ := Block.reblock_selectable (Stm.selectable_linear hc) hout
    obtain ⟨code, w, hcode, hresolved', -⟩ :=
      exists_ofMethod hselectable hresolved [] (m.temp? resultName).toList v
    obtain ⟨code', w', hcode', hjumps, -⟩ := exists_inferEntry hresolved' w
    refine ⟨code, w, code', w', hcode, hcode', fun bound q t hrounds => ?_⟩
    exact Liveness.exists_analyze_iff.mpr
      (hrounds.sameJumps.1.resolved (hjumps.resolved hresolved'))

/-- A loop that leaves for a label nobody placed. -/
def unboundedLoop : Text.MethodText where
  name := "loop"
  body := .seqAll [ .label ⟨"test"⟩, .cjump .lt (.temp ⟨7, .plain "i"⟩) (.const 10) ⟨"done"⟩,
    .move (.temp ⟨7, .plain "i"⟩) (.eseq (.move (.mem (.temp .framePointer)) (.const 1))
      (.plus (.temp ⟨7, .plain "i"⟩) (.mem (.temp .framePointer)))),
    .jump ⟨"test"⟩]
  temps := [("i", ⟨7, .plain "i"⟩)]

/-- The loop has a canonical form, and its missing label is found out when it is
reblocked. -/
theorem ofText_fails_iff_unboundedLoop : (Session.ofTemps ["i"]).config.Valid ∧
      FailsWith (ofText false unboundedLoop) (.ofTemps ["i"]) (.undefinedLabel ⟨"done"⟩) ∧
      Rejects unboundedLoop.body ((Session.ofTemps ["i"]).withTemp "ret")
        (.undefinedLabel ⟨"done"⟩) := by
  have hfails : FailsWith (ofText false unboundedLoop) (.ofTemps ["i"])
      (.undefinedLabel ⟨"done"⟩) := by decide +kernel
  exact ⟨by decide, hfails, ((ofText_fails_iff unboundedLoop (by decide) rfl).1 _).mp hfails⟩

end CompiledMethod

end TreeBackend
