import TreeBackend.Proofs.MethodRuns
import TreeBackend.Proofs.MethodStages
import TreeBackend.Proofs.Reblocking

/-!
# Programs that are lowered are compiled

A program may be refused while its class table is built or its methods are
lowered: it names a class, a method or a variable that there is not. After that
nothing can be refused any more. The trees that lowering makes place each of
their labels once and jump to these labels only, so each of them has a canonical
form that can be reblocked (`MethodTree.Sound.exists_reblock`), and what is
reblocked is compiled. Compiling a method draws temps and labels and gives none
back, so that the trees still to be compiled stay sound.
-/

namespace TreeBackend

open Footprint

variable {trees : List MethodTree} {r : Allocation × Frame} {code : List Instruction}

/-! ## Trees that can be reblocked -/

/-- The tree of a method is **well formed**: no label is placed twice, every label
that is jumped to is placed, and what is moved goes to a temp or to memory. -/
structure MethodTree.WellFormed (tree : MethodTree) : Prop where
  once : tree.body.toStm.labels.Nodup
  targets : ∀ n ∈ tree.body.toStm.nodes, ∀ l ∈ n.target?, l ∈ tree.body.toStm.labels
  destinations : ∀ {dst src : Exp}, .stm (.move dst src) ∈ tree.body.toStm.nodes →
    (∃ t, dst = .temp t) ∨ ∃ address, dst = .mem address

namespace MethodTree.Sound

variable {tree : MethodTree} {s : Session}

theorem wellFormed (h : tree.Sound s) : tree.WellFormed where
  once := h.once
  targets n hn l hl := by
    have hwithin := h.nodes_within n hn
    cases n with
    | exp e => cases hl
    | stm stm =>
      cases stm with
      | jump | cjump =>
        obtain rfl := Option.some.inj hl
        exact hwithin
      | move | exp | label | seq => cases hl
  destinations {dst src} hmem := by
    have hplace := (h.nodes_within _ hmem).2 trivial
    cases dst with
    | temp t => exact .inl ⟨t, rfl⟩
    | mem address => exact .inr ⟨address, rfl⟩
    | const | name | binop | not | call | eseq => cases hplace

/-- What the canonical form of a sound tree may do. -/
theorem canonical_within (h : tree.Sound s) {c : Stm} {u : Session}
    (hc : Yields tree.body.toStm.canonicalize s c u) : ∀ stm ∈ c.linear,
      stm.Within (.owned tree.frame.wordsInUse u tree.body.toStm.labels) := by
  refine fun stm hstm => Stm.within_of_mem_linear (tree.body.toStm.canonicalize_within ?_
    (h.within.mono (.owned (List.Subset.refl _) (Stm.le_of_canonicalize hc))) hc (Nat.le_refl _))
    hstm
  exact fun n hn => ⟨nofun, hn⟩

/-- **A sound tree can be reblocked** in canonical form: it is tidied up. -/
theorem exists_reblock (h : tree.Sound s) {c : Stm} {u : Session}
    (hc : Yields tree.body.toStm.canonicalize s c u) :
    ∃ v, Yields (Block.reblock c.linear)
      { u with stats := u.stats.addStatements c.linear.length } (Block.tidied c.linear) v := by
  have htarget : ∀ stm ∈ c.linear, ∀ l, stm.target? = some l → l ∈ tree.body.toStm.labels :=
    fun stm hstm _ hl => (h.canonical_within hc stm hstm).target hl
  -- a label that is jumped to is known to the session and placed once
  refine ⟨_, Block.yields_reblock (fun stm hstm l hl => ?_) fun stm hstm l hl => ?_⟩
  · exact (tree.body.toStm.growing_canonicalize.continues hc).labels l
      (h.known l (htarget stm hstm l hl))
  · show (Body.labels c.linear).count l = 1
    rw [(tree.body.toStm.hasForm hc).labels]
    exact List.count_eq_one_of_mem h.once (htarget stm hstm l hl)

end MethodTree.Sound

/-! ## Methods one after the other -/

namespace CompiledMethod

variable {strict : Bool} {name : String} {body : Stm} {frame : Frame} {boundary : Boundary}
  {s s' : Session} {m : CompiledMethod}

/-- The stages that a compiled method went through. -/
theorem of_compile (h : Yields (compile strict name body frame boundary) s m s') :
    ∃ u v w w', Yields body.canonicalize s m.canonical u ∧ Yields (Block.reblock m.canonical.linear)
        { u with stats := u.stats.addStatements m.canonical.linear.length } m.reblocked v ∧
      Yields (selectBody m.reblocked boundary) v m.code w ∧
      Yields (allocate m.code.instructions frame) w (m.allocation, m.frame) w' ∧
      w'.DrawsTemps s' ∧ m.name = name := by
  simp only [compile, yields_bind, yields_lift, yields_liftExcept] at h
  obtain ⟨c, u, hc, linear, _, ⟨hlinear, rfl⟩, _, u', hcount, out, v, hout, code, w, hcode,
    ⟨allocation, frame'⟩, w', halloc, h⟩ := h
  rw [Stm.linearize_of_isCanonical (body.hasForm hc).canonical] at hlinear
  obtain rfl := Except.ok.inj hlinear
  obtain ⟨-, rfl⟩ := Prod.mk.inj hcount
  let result : CompiledMethod :=
    { name, canonical := c, linear := c.linear, reblocked := out, code, allocation,
      frame := frame' }
  -- an error of the allocation would have been thrown
  obtain ⟨_, w'', hcount', hm, rfl⟩ : ∃ x w'', (Session.count fun stats =>
      stats.addMethod name code.instructions.length).run w' = (x, w'') ∧ result = m ∧ w'' = s' := by
    split at h
    · split at h
      · exact absurd (yields_bind.mp h) (by simp)
      · simp only [yields_bind, yields_lift, yields_pure] at h
        exact h
    · simp only [yields_bind, yields_lift, yields_pure] at h
      exact h
  obtain ⟨-, rfl⟩ := Prod.mk.inj hcount'
  rw [← hm]
  exact ⟨u, v, w, w', hc, hout, hcode, halloc, ⟨Nat.le_refl _, rfl, rfl⟩, rfl⟩

/-- A body in canonical form can be selected once it is reblocked, and the jumps of its code
are resolved. -/
theorem of_selectBody {c : Stm} {out : List Stm} {code : Code} {u u' v w : Session}
    (hc : Yields body.canonicalize s c u) (hout : Yields (Block.reblock c.linear) u' out v)
    (hcode : Yields (selectBody out boundary) v code w) : Body.Selectable out ∧ u'.Continues v ∧
      Resolved (code.instructions.map Instruction.footprint) ∧ v.DrawsTemps w := by
  obtain ⟨hselectable, hresolved, hcontinues⟩ :=
    Block.reblock_selectable (Stm.selectable_linear hc) hout
  obtain ⟨_, _, hcode', hresolved', hdraws⟩ := exists_selectBody hselectable hresolved boundary v
  obtain ⟨rfl, rfl⟩ := hcode.unique hcode'
  exact ⟨hselectable, hcontinues, hresolved', hdraws⟩

/-- An allocation is what the last round ends with, and that round leaves nothing to
spill or has reached the bound. -/
theorem exists_rounds_of_allocate (hcode : Resolved (code.map Instruction.footprint))
    (h : Yields (allocate code frame) s r s') :
    ∃ bound q t round u,
      Allocation.Rounds s.config.registers s.config.maxSpillRounds { instructions := code, frame } s
        bound q t ∧
      Yields (Allocation.attempt q s.config.registers) t round u ∧
      (bound = 0 ∨ round.candidates q = []) ∧
      r = (((Allocation.finish q round).run u).1, q.frame) ∧
      s' = ((Allocation.finish q round).run u).2 := by
  obtain ⟨bound, q, t, round, u, hrounds, hround, hend, hyields⟩ := Allocation.exists_iterate
    s.config.registers s.config.maxSpillRounds (p := { instructions := code, frame }) (s := s) hcode
  obtain ⟨rfl, rfl⟩ := h.unique (yields_bind.mpr ⟨s, s, rfl, hyields⟩)
  exact ⟨bound, q, t, round, u, hrounds, hround, hend, rfl, rfl⟩

/-- The rounds that an allocation went through, and the last attempt. -/
theorem of_allocate (hcode : Resolved (code.map Instruction.footprint))
    (h : Yields (allocate code frame) s r s') :
    ∃ bound q t round u,
      Allocation.Rounds s.config.registers s.config.maxSpillRounds { instructions := code, frame } s
        bound q t ∧
      Yields (Allocation.attempt q s.config.registers) t round u ∧
      r.1.instructions = q.instructions ∧ r.1.liveness = round.liveness := by
  obtain ⟨bound, q, t, round, u, hrounds, hround, -, rfl, rfl⟩ := exists_rounds_of_allocate hcode h
  obtain ⟨_, hfinish, -⟩ := Allocation.finish_run q round u
  rw [hfinish]
  exact ⟨bound, q, t, round, u, hrounds, hround, rfl, rfl⟩

/-- A sound tree is compiled. -/
theorem exists_ofTree {tree : MethodTree} (h : tree.Sound s) :
    ∃ m s', Yields (ofTree false tree) s m s' ∧ m.name = tree.name ∧ s.Continues s' := by
  obtain ⟨c, u, hc⟩ := h.exists_canonicalize _
  obtain ⟨v, hout⟩ := h.exists_reblock hc
  obtain ⟨m, s', hm, -⟩ := exists_compile tree.name tree.frame
    { entry? := some tree.entry, exit := tree.exit } hc hout
  obtain ⟨-, -, -, -, -, -, -, -, -, hname⟩ := of_compile hm
  exact ⟨m, s', hm, hname, (growing_compile _ _ _ _ _).continues hm⟩

theorem exists_mapM_ofTree (h : ∀ tree ∈ trees, tree.Sound s) :
    ∃ methods s', Yields (trees.mapM (ofTree false)) s methods s' ∧
      methods.map (·.name) = trees.map (·.name) := by
  induction trees generalizing s with
  | nil => exact ⟨[], s, rfl, rfl⟩
  | cons tree trees ih =>
    rw [List.forall_mem_cons] at h
    obtain ⟨m, u, hm, hname, hcontinues⟩ := exists_ofTree h.1
    obtain ⟨methods, s', hmethods, hnames⟩ := ih fun tree htree => (h.2 tree htree).mono hcontinues
    refine ⟨m :: methods, s', yields_mapM_cons.mpr ⟨m, u, methods, hm, hmethods, rfl⟩, ?_⟩
    rw [List.map_cons, List.map_cons, hname, hnames]

theorem exists_ofProgram {program : Program} {table : ClassTable} {u v : Session}
    (hconfig : s.config.Valid) (htable : Yields (ClassTable.build program) s table u)
    (htrees : Yields (MethodTree.ofProgram program table) u trees v) :
    ∃ methods s', Yields (ofProgram false program) s methods s' ∧
      methods.map (·.name) = trees.map (·.name) := by
  obtain ⟨methods, s', hmethods, hnames⟩ := exists_mapM_ofTree (MethodTree.sound_ofProgram htrees)
  refine ⟨methods, s', ?_, hnames⟩
  exact yields_bind.mpr ⟨(), s, yields_checkConfig hconfig, yields_bind.mpr ⟨table, u, htable,
    yields_bind.mpr ⟨trees, v, htrees, hmethods⟩⟩⟩

/-- **A program that builds is compiled.** Take any program and a session with a
valid configuration, and let the program have a class table and trees.

* In every tree no label is placed twice, every label that is jumped to is placed,
  and every move goes to a temp or to memory.
* Without `strict` the program is compiled: no stage after lowering fails for any
  of its methods, and there is one compiled method for each tree, in order. -/
theorem ofProgram_compiles {program : Program} {table : ClassTable} {trees : List MethodTree}
    {u v : Session} (hconfig : s.config.Valid)
    (htable : Yields (ClassTable.build program) s table u)
    (htrees : Yields (MethodTree.ofProgram program table) u trees v) :
    (∀ tree ∈ trees, tree.WellFormed) ∧
      ∃ methods s', Yields (ofProgram false program) s methods s' ∧
        methods.map (·.name) = trees.map (·.name) :=
  ⟨fun tree htree => (MethodTree.sound_ofProgram htrees tree htree).wellFormed,
    exists_ofProgram hconfig htable htrees⟩

/-- A program that adds up some numbers, with a class for it. -/
def summingProgram : Program where
  mainName := "Main"
  mainBody := [.print (.call (.newObject "Sum") "Sum" "sum" [.int 3])]
  classes := [⟨"Sum", none, ["total"],
    [⟨"more", ["n"], [], [], .binary .lt (.ident "total") (.int 100)⟩, MethodTree.summing]⟩]

theorem ofProgram_compiles_summingProgram : ({} : Session).config.Valid ∧
    ∃ table u trees v, Yields (ClassTable.build summingProgram) {} table u ∧
      Yields (MethodTree.ofProgram summingProgram table) u trees v ∧
      (∀ tree ∈ trees, tree.WellFormed) ∧ ∃ methods s',
        Yields (ofProgram false summingProgram) {} methods s' ∧
          methods.map (·.name) = trees.map (·.name) := by
  obtain ⟨trees, v, htrees⟩ : ∃ trees v, Yields (do
      MethodTree.ofProgram summingProgram (← ClassTable.build summingProgram)) {} trees v :=
    exists_yields_of_isOk (by decide +kernel)
  obtain ⟨table, u, htable, htrees⟩ := yields_bind.mp htrees
  exact ⟨by decide, table, u, trees, v, htable, htrees,
    ofProgram_compiles (by decide) htable htrees⟩

end CompiledMethod

end TreeBackend
