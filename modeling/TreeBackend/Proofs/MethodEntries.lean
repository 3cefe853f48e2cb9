import TreeBackend.Proofs.ClassHierarchy
import TreeBackend.Proofs.LoweredFrames
import TreeBackend.Proofs.RegisterPressure

/-!
# Registers for the entry of methods

A method that does nothing but return a number still has to be entered. The first
formals of a method, up to a bound that the configuration sets, arrive in registers
all at once – the receiver, the parameters and the caller's continuation – and the
configuration may set this bound higher than the number of registers. A program of
such methods is compiled whenever it has a class table, and each of its methods gets
its registers exactly if there is one for every formal that travels in a register
(`CompiledMethod.converged_iff_of_number`).
-/

namespace TreeBackend

open List Footprint Program

variable {c : ClassDecl} {program : Program} {table : ClassTable} {s : Session}

/-! ## Formals in registers -/

namespace Frame

/-- **The entry of a method**: the receiver, the parameters and the continuation, up to
the bound, in different temps. -/
theorem entry_methodFrame {frame : Frame} {a b : Session} {className : String} {m : MethodDecl}
    (h : (ClassTable.methodFrame className m).run a = (frame, b)) :
    frame.registerFormals.length = min (m.params.length + 2) a.config.maxRegisterFormals ∧
      frame.registerFormals.Nodup := by
  have hlaid := (built_methodFrame h).laid
  have hmax : frame.maxRegisterFormals = a.config.maxRegisterFormals := by
    have hgrown := ClassTable.extending_methodFrame className m a
    rw [h] at hgrown
    rw [hlaid.maxRegisterFormals, hgrown.config]
  have hcount := hlaid.placed.length_eq
  simp only [length_append, length_cons, length_nil, hmax] at hcount
  refine ⟨by omega, hlaid.drawn.sorted.imp fun {t u} (hlt : t.index < u.index) heq => ?_⟩
  exact Nat.lt_irrefl _ (heq ▸ hlt)

end Frame

/-! ## Methods that return a number -/

/-- The program is **bare**: its methods do nothing, and their results are numbers. -/
structure Program.Bare (program : Program) : Prop where
  main : program.mainBody = []
  body : ∀ c ∈ program.classes, ∀ m ∈ c.methods, m.body = []
  result : ∀ c ∈ program.classes, ∀ m ∈ c.methods, ∃ n, m.result = .int n

namespace MethodTree

variable {arrays : ArrayLayout} {a b : Session} {tree : MethodTree}

theorem yields_ofMethod_bare {m : MethodDecl} {n : Int64} (hbody : m.body = [])
    (hresult : m.result = .int n) :
    Yields (ofMethod c m table arrays) a tree b ↔ ∃ info frame, table.find c.name = .ok info ∧
      (ClassTable.methodFrame c.name m).run a = (frame, b) ∧
      tree = ⟨ClassTable.methodKey c.name m.name,
        .stm (.move (.temp frame.result) (.const n)), frame, true⟩ := by
  simp only [ofMethod, yields_bind, yields_liftExcept, yields_lift, yields_pure, hbody, hresult,
    Stmt.lowerAll, Expr.lower, Fragment.toExp]
  constructor
  · rintro ⟨info, _, ⟨hinfo, rfl⟩, frame, u, hframe, _, _, ⟨rfl, rfl⟩, _, _, ⟨rfl, rfl⟩, _, _,
      ⟨rfl, rfl⟩, rfl, rfl⟩
    exact ⟨info, frame, hinfo, hframe, rfl⟩
  · rintro ⟨info, frame, hinfo, hframe, rfl⟩
    exact ⟨info, a, ⟨hinfo, rfl⟩, frame, b, hframe, [], b, ⟨rfl, rfl⟩, .exp (.const n), b,
      ⟨rfl, rfl⟩, .const n, b, yields_pure.mpr ⟨rfl, rfl⟩, rfl, rfl⟩

theorem yields_ofMain_bare (hmain : program.mainBody = []) :
    Yields (ofMain program table arrays) a tree b ↔ ∃ frame,
      (Frame.new (ClassTable.mainKey program.mainName)).run a = (frame, b) ∧
      tree = ⟨ClassTable.mainKey program.mainName, .stm .nop, frame, false⟩ := by
  simp only [ofMain, yields_bind, yields_lift, yields_pure, hmain, Stmt.lowerAll]
  constructor
  · rintro ⟨frame, u, hframe, _, _, ⟨rfl, rfl⟩, rfl, rfl⟩
    exact ⟨frame, hframe, rfl⟩
  · rintro ⟨frame, hframe, rfl⟩
    exact ⟨frame, b, hframe, _, _, ⟨rfl, rfl⟩, rfl, rfl⟩

end MethodTree

/-! ## The code of such methods -/

namespace Allocation

open Instruction Liveness

variable {entry : List Temp} {r : Temp} {n : Int64}

/-- The code of a method that returns a number. -/
def returning (entry : List Temp) (r : Temp) (n : Int64) : List Instruction :=
  [.enter entry, .movImm r n, .ret [r]]

theorem getElem?_returning {index : Nat} {i : Instruction}
    (hi : (returning entry r n)[index]? = some i) :
    index = 0 ∧ i = .enter entry ∨ index = 1 ∧ i = .movImm r n ∨ index = 2 ∧ i = .ret [r] := by
  match index with
  | 0 => exact .inl ⟨rfl, (Option.some.inj hi).symm⟩
  | 1 => exact .inr (.inl ⟨rfl, (Option.some.inj hi).symm⟩)
  | 2 => exact .inr (.inr ⟨rfl, (Option.some.inj hi).symm⟩)
  | index + 3 => cases hi

/-- Only the result is read later than it is written. -/
theorem eq_of_readLater {t : Temp} {k : Nat} (h : ReadLater (returning entry r n) t (k + 1)) :
    k = 1 ∧ t = r := by
  obtain ⟨index, i, hle, hi, ht, hfree⟩ := h
  obtain ⟨rfl, rfl⟩ | ⟨rfl, rfl⟩ | ⟨rfl, rfl⟩ := getElem?_returning hi
  · cases ht
  · cases ht
  · obtain rfl := mem_singleton.mp ht
    refine ⟨?_, rfl⟩
    by_contra hk
    exact hfree 1 _ (by omega) (by omega) rfl mem_cons_self

/-- The code of a method that returns a number is all entry. -/
theorem allEntry_returning (entry : List Temp) (r : Temp) (n : Int64) :
    AllEntry entry (returning entry r n) where
  copies := by simp [returning, enter, movImm, ret]
  conflicts {flow} hflow {t u} hconflict hne := by
    obtain ⟨index, i, hi, hmem⟩ := hconflict
    have hstraight : ∀ i ∈ returning entry r n, i.targets = [] := by
      simp [returning, enter, movImm, ret]
    have hpair {a b : Temp}
        (h : (a, b) ∈ Interference.conflicts i ((solve flow.toArray).after index)) (hne : a ≠ b) :
        a ∈ entry ∧ b ∈ entry := by
      obtain ⟨ha, hb⟩ := Interference.of_mem_conflicts h
      replace hb : index = 1 ∧ b = r ∨ b ∈ i.defs :=
        hb.imp_left fun hb => eq_of_readLater (readLater_of_mem_after hflow hstraight hb)
      obtain ⟨rfl, rfl⟩ | ⟨rfl, rfl⟩ | ⟨rfl, rfl⟩ := getElem?_returning hi
      · exact ⟨ha, hb.resolve_left fun hb => Nat.zero_ne_one hb.1⟩
      · have hb' : b = r := hb.elim (·.2) mem_singleton.mp
        exact absurd ((mem_singleton.mp ha).trans hb'.symm) hne
      · cases ha
    obtain h | h := hmem
    · exact hpair h hne.symm
    · exact (hpair h hne).symm

/-- So is the code of a method that does nothing. -/
theorem allEntry_nothing : AllEntry [] [.enter [], .ret []] where
  copies := by simp [enter, ret]
  conflicts {flow} hflow {t u} hconflict hne := by
    obtain ⟨index, i, hi, hmem⟩ := hconflict
    have hdefs : i.defs = [] := by
      have := mem_of_getElem? hi
      simp only [mem_cons, not_mem_nil, or_false] at this
      obtain rfl | rfl := this <;> rfl
    obtain h | h := hmem
    · exact absurd (Interference.of_mem_conflicts h).1 (hdefs ▸ not_mem_nil)
    · exact absurd (Interference.of_mem_conflicts h).1 (hdefs ▸ not_mem_nil)

end Allocation

namespace CompiledMethod

open Allocation

variable {strict : Bool} {name : String} {body : Stm} {frame : Frame} {boundary : Boundary}
  {s' : Session} {m : CompiledMethod}

/-- What is allocated, for a body that the stages before leave alone. -/
theorem exists_allocate_of_compile (h : Yields (compile strict name body frame boundary) s m s')
    (out : List Stm) (code : List Instruction)
    (hcanonical : ∀ s, Yields body.canonicalize s body s)
    (hreblock : ∀ s, Yields (Block.reblock body.linear) s out s)
    (hselect : ∀ s, ∃ temps w, Yields (selectBody out boundary) s ⟨code, temps⟩ w ∧
      s.DrawsTemps w) :
    m.name = name ∧ ∃ w w', s.Continues w ∧
      Yields (allocate code frame) w (m.allocation, m.frame) w' := by
  obtain ⟨u, v, w, w', hc, hout, hcode, halloc, -, hname⟩ := of_compile h
  obtain ⟨heq, rfl⟩ := (hcanonical s).unique hc
  rw [← heq] at hout
  obtain ⟨heq', rfl⟩ := (hreblock _).unique hout
  rw [← heq'] at hcode
  obtain ⟨temps, w₁, hselect, hdraws⟩ := hselect { s with stats := _ }
  obtain ⟨heq'', rfl⟩ := hselect.unique hcode
  rw [← heq''] at halloc
  exact ⟨hname, w₁, w', ⟨hdraws.le, fun l hl => hdraws.continues.labels l hl, hdraws.config⟩,
    halloc⟩

/-- **A method that returns a number** gets its registers exactly if there is one for each
of the formals that travel in registers. -/
theorem converged_iff_of_number {d : MethodDecl} {arrays : ArrayLayout} {a b : Session}
    {tree : MethodTree} {n : Int64} (hbody : d.body = []) (hresult : d.result = .int n)
    (htree : Yields (MethodTree.ofMethod c d table arrays) a tree b) (hconfig : a.config.Valid)
    (hab : a.Continues b) (hbs : b.Continues s) (h : Yields (ofTree strict tree) s m s') :
    m.name = ClassTable.methodKey c.name d.name ∧ (m.allocation.converged = true ↔
      min (d.params.length + 2) a.config.maxRegisterFormals ≤ a.config.registers) := by
  obtain ⟨info, frame, -, hframe, rfl⟩ := (MethodTree.yields_ofMethod_bare hbody hresult).mp htree
  obtain ⟨hlength, hnodup⟩ := Frame.entry_methodFrame hframe
  have hdrawn := Frame.drawn_methodFrame hframe
  have hcanonical (s : Session) : Yields (Stm.move (.temp frame.result) (.const n)).canonicalize s
      (.move (.temp frame.result) (.const n)) s := by
    rw [Stm.canonicalize_move]
    rfl
  obtain ⟨hname, w, w', hsw, halloc⟩ := exists_allocate_of_compile h
    [.move (.temp frame.result) (.const n)] (returning frame.registerFormals frame.result n)
    hcanonical (fun _ => rfl) (fun s => ⟨_, _, rfl, Nat.le_refl _, rfl, rfl⟩)
  have hcontinues : a.Continues w := (hab.trans hbs).trans hsw
  have hplain {t : Temp} (ht : t ∈ frame.result :: frame.registerFormals) : w.Owns t ∧
      t.isFramePointer = false := by
    obtain ⟨name, hkind, hlt⟩ : ∃ name, t.kind = .plain name ∧ t.index < b.tempCount := by
      obtain rfl | ht := mem_cons.mp ht
      · exact hdrawn.plain.imp fun _ hkind => ⟨hkind, hdrawn.result⟩
      · obtain ⟨name, hkind, -, hlt⟩ := hdrawn.formals t ht
        exact ⟨name, hkind, hlt⟩
    obtain ⟨id, kind⟩ := t
    obtain rfl : kind = .plain name := hkind
    exact ⟨Session.owns_plain name (Nat.lt_of_lt_of_le hlt (hbs.trans hsw).le), rfl⟩
  have howned : ∀ i ∈ returning frame.registerFormals frame.result n, i.OwnedBy w := by
    simp only [returning, forall_mem_cons]
    refine ⟨?_, ?_, ?_, by simp⟩
    · exact fun t ht => (hplain (mem_cons_of_mem _ ht)).1
    · exact fun t ht => (hplain (mem_singleton.mp ht ▸ mem_cons_self)).1
    · exact fun t ht => (hplain (mem_singleton.mp ht ▸ mem_cons_self)).1
  refine ⟨hname, ?_⟩
  rw [(allEntry_returning _ _ n).converged_iff rfl hnodup
    (fun t ht => (hplain (mem_cons_of_mem _ ht)).2) howned
    ⟨nodup_nil, forall_mem_nil _⟩
    (hcontinues.config ▸ hconfig) halloc, hlength, hcontinues.config]

/-- A main method that does nothing gets its registers. -/
theorem converged_of_nothing {arrays : ArrayLayout} {a b : Session} {tree : MethodTree}
    (hmain : program.mainBody = [])
    (htree : Yields (MethodTree.ofMain program table arrays) a tree b) (hconfig : s.config.Valid)
    (h : Yields (ofTree strict tree) s m s') :
    m.name = ClassTable.mainKey program.mainName ∧ m.allocation.converged = true := by
  obtain ⟨frame, hframe, rfl⟩ := (MethodTree.yields_ofMain_bare hmain).mp htree
  obtain ⟨rfl, rfl⟩ := Prod.mk.inj hframe
  have hcanonical (s : Session) : Yields Stm.nop.canonicalize s Stm.nop s := by
    rw [Stm.nop, Stm.canonicalize_exp]
    rfl
  obtain ⟨hname, w, w', hsw, halloc⟩ := exists_allocate_of_compile h [] [.enter [], .ret []]
    hcanonical (fun _ => rfl) (fun s => ⟨_, _, rfl, Nat.le_refl _, rfl, rfl⟩)
  refine ⟨hname, (allEntry_nothing.converged_iff rfl nodup_nil nofun ?_ ⟨nodup_nil, nofun⟩
    (hsw.config ▸ hconfig) halloc).mpr (Nat.zero_le _)⟩
  simp [Instruction.OwnedBy, Instruction.enter, Instruction.ret]

end CompiledMethod

/-! ## Programs of such methods -/

/-- The methods of the classes of a program, in order. -/
def Program.declarations (program : Program) : List (ClassDecl × MethodDecl) :=
  program.classes.flatMap fun c => c.methods.map (c, ·)

theorem Program.mem_declarations {entry : ClassDecl × MethodDecl} :
    entry ∈ program.declarations ↔ entry.1 ∈ program.classes ∧ entry.2 ∈ entry.1.methods := by
  obtain ⟨c, m⟩ := entry
  simp only [declarations, mem_flatMap, mem_map, Prod.mk.injEq]
  exact ⟨fun ⟨_, hc, _, hm, heq, heq'⟩ => heq ▸ heq' ▸ ⟨hc, hm⟩,
    fun ⟨hc, hm⟩ => ⟨c, hc, m, hm, rfl, rfl⟩⟩

/-- A class table has all classes of the program. -/
theorem ClassTable.exists_find {s' : Session} (h : Yields (build program) s table s')
    (hc : c ∈ program.classes) : ∃ info, table.find c.name = .ok info := by
  obtain ⟨d, hd⟩ := exists_declared? hc
  obtain ⟨info, hinfo, -⟩ := exists_find_of_declared? h hd
  exact ⟨info, hinfo⟩

theorem forall₂_comp {α β γ : Type} {R : α → β → Prop} {S : β → γ → Prop} {xs : List α}
    {ys : List β} {zs : List γ} (h : List.Forall₂ R xs ys) (h' : List.Forall₂ S ys zs) :
    List.Forall₂ (fun x z => ∃ y, R x y ∧ S y z) xs zs := by
  induction h generalizing zs with
  | nil =>
    cases h'
    exact .nil
  | cons hxy _ ih =>
    cases h' with
    | cons hyz hrest => exact .cons ⟨_, hxy, hyz⟩ (ih hrest)

/-- A bare program that has a class table is lowered. -/
theorem Program.Bare.exists_ofProgram (h : program.Bare) {u : Session}
    (htable : Yields (ClassTable.build program) s table u) :
    ∃ trees v, Yields (MethodTree.ofProgram program table) u trees v := by
  obtain ⟨arrays, u₁, harrays⟩ : ∃ arrays u₁, ArrayLayout.new.run u = (arrays, u₁) := ⟨_, _, rfl⟩
  obtain ⟨main, v, hmain⟩ : ∃ main v, Yields (MethodTree.ofMain program table arrays) u₁ main v :=
    ⟨_, _, (MethodTree.yields_ofMain_bare h.main).mpr ⟨_, rfl, rfl⟩⟩
  have heach : ∀ entry ∈ program.declarations, ∀ a, ∃ tree b,
      Yields (MethodTree.ofMethod entry.1 entry.2 table arrays) a tree b := by
    intro entry hentry a
    obtain ⟨hc, hm⟩ := mem_declarations.mp hentry
    obtain ⟨n, hresult⟩ := h.result _ hc _ hm
    obtain ⟨info, hinfo⟩ := ClassTable.exists_find htable hc
    exact ⟨_, _, (MethodTree.yields_ofMethod_bare (h.body _ hc _ hm) hresult).mpr
      ⟨info, _, hinfo, rfl, rfl⟩⟩
  obtain ⟨methods, v', hmethods⟩ := exists_yields_mapM heach v
  exact ⟨main :: methods, v', yields_bind.mpr ⟨arrays, u₁, yields_lift.mpr harrays,
    yields_bind.mpr ⟨main, v, hmain, yields_bind.mpr ⟨methods, v', hmethods, rfl⟩⟩⟩⟩

namespace CompiledMethod

/-- What compiling a bare method comes to: whether there is a register for each of the
formals that travel in registers. -/
def EntryDecides (config : Config) (entry : ClassDecl × MethodDecl) (m : CompiledMethod) : Prop :=
  m.name = ClassTable.methodKey entry.1.name entry.2.name ∧ (m.allocation.converged = true ↔
    min (entry.2.params.length + 2) config.maxRegisterFormals ≤ config.registers)

theorem forall₂_entryDecides (hbare : program.Bare) {s' : Session} {methods : List CompiledMethod}
    (hconfig : s.config.Valid) (h : Yields (ofProgram false program) s methods s') :
    ∃ main rest, methods = main :: rest ∧ main.name = ClassTable.mainKey program.mainName ∧
      main.allocation.converged = true ∧
      List.Forall₂ (EntryDecides s.config) program.declarations rest := by
  simp only [ofProgram, MethodTree.ofProgram, yields_bind, yields_lift, yields_pure] at h
  obtain ⟨_, s₁, hcheck, table, u, htable, _, v, ⟨arrays, u₁, harrays, tree, u₂, hmain, trees, v',
    htrees, rfl, rfl⟩, hmethods⟩ := h
  obtain ⟨main, w, rest, hfirst, hrest, rfl⟩ := yields_mapM_cons.mp hmethods
  obtain rfl : s = s₁ := (of_checkConfig hcheck).2.symm
  obtain ⟨-, rfl⟩ := Prod.mk.inj harrays
  -- sessions only grow, from the class table to the last method
  have hgrown : Session.Continues s u₂ :=
    ((ClassTable.growing_build program).continues htable).trans
      ((MethodTree.growing_ofMain program table arrays).continues hmain)
  obtain ⟨hlowered, hall⟩ := htrees.forall₂_of_mapM (R := Session.Continues) .refl .trans
    fun h => (MethodTree.growing_ofMethod _ _ table arrays).continues h
  have hw : Session.Continues v' w := (growing_compile _ _ _ _ _).continues hfirst
  obtain ⟨-, hall'⟩ := hrest.forall₂_of_mapM (R := Session.Continues) .refl .trans
    (fun h => (growing_compile _ _ _ _ _).continues h)
  have hconfig' : v'.config.Valid := (hgrown.trans hlowered).config ▸ hconfig
  obtain ⟨hname, hconverged⟩ := converged_of_nothing hbare.main hmain hconfig' hfirst
  refine ⟨main, rest, rfl, hname, hconverged, ?_⟩
  have hbare' : ∀ entry ∈ program.declarations,
      entry.2.body = [] ∧ ∃ n, entry.2.result = .int n := by
    intro entry hentry
    obtain ⟨hc, hm⟩ := mem_declarations.mp hentry
    exact ⟨hbare.body _ hc _ hm, hbare.result _ hc _ hm⟩
  refine (forall₂_comp ((forall₂_and_left _ _).mpr ⟨hbare', hall⟩) hall').imp ?_
  rintro ⟨c, d⟩ m ⟨tree, ⟨⟨hbody, n, hresult⟩, a, b, ha, htree, hb⟩, a', b', ha', hm, -⟩
  have hconfig'' := (hgrown.trans ha).config
  have hab := (MethodTree.growing_ofMethod c d table arrays).continues htree
  have hdecides := converged_iff_of_number hbody hresult htree (hconfig'' ▸ hconfig) hab
    ((hb.trans hw).trans ha') hm
  rwa [hconfig''] at hdecides

/-- **The entry of methods takes registers.** Take any session with a valid configuration,
and a program whose methods do nothing but return a number.

* The program is compiled exactly if it has a class table.
* Its main method then gets its registers, and every other method gets its registers
  exactly if there is one for each of its formals – the receiver, the parameters and the
  continuation – up to the number of formals that travel in registers. -/
theorem ofProgram_converges_iff {program : Program} (hbare : program.Bare) {s : Session}
    (hconfig : s.config.Valid) :
    ((∃ methods s', Yields (ofProgram false program) s methods s') ↔
      ∃ table u, Yields (ClassTable.build program) s table u) ∧
    ∀ methods s', Yields (ofProgram false program) s methods s' →
      ∃ main rest, methods = main :: rest ∧ main.name = ClassTable.mainKey program.mainName ∧
        main.allocation.converged = true ∧
        List.Forall₂ (fun (entry : ClassDecl × MethodDecl) m =>
            m.name = ClassTable.methodKey entry.1.name entry.2.name ∧
            (m.allocation.converged = true ↔
              min (entry.2.params.length + 2) s.config.maxRegisterFormals ≤ s.config.registers))
          (program.classes.flatMap fun c => c.methods.map (c, ·)) rest := by
  refine ⟨⟨?_, ?_⟩, fun methods s' h => forall₂_entryDecides hbare hconfig h⟩
  · rintro ⟨methods, s', h⟩
    obtain ⟨_, s₁, hcheck, h⟩ := yields_bind.mp h
    obtain rfl : s = s₁ := (of_checkConfig hcheck).2.symm
    obtain ⟨table, u, htable, -⟩ := yields_bind.mp h
    exact ⟨table, u, htable⟩
  · rintro ⟨table, u, htable⟩
    obtain ⟨trees, v, htrees⟩ := hbare.exists_ofProgram htable
    obtain ⟨methods, s', hmethods, -⟩ := CompiledMethod.exists_ofProgram hconfig htable htrees
    exact ⟨methods, s', hmethods⟩

/-- A program with a method of two parameters that returns a number. -/
def bareProgram : Program where
  mainName := "Main"
  mainBody := []
  classes := [⟨"A", none, [], [⟨"f", ["a", "b"], [], [], .int 1⟩]⟩]

/-- With as many registers as formals, four, the method gets them. -/
theorem ofProgram_converges_iff_bareProgram : bareProgram.Bare ∧ ({} : Session).config.Valid ∧
    ∃ main f s', Yields (ofProgram false bareProgram) {} [main, f] s' ∧
      main.allocation.converged = true ∧ f.allocation.converged = true := by
  have hbare : bareProgram.Bare := ⟨rfl, by decide, by simp [bareProgram]⟩
  obtain ⟨hcompiled, hconverged⟩ := ofProgram_converges_iff hbare (s := {}) (by decide)
  obtain ⟨methods, s', h⟩ := hcompiled.mpr (exists_yields_of_isOk (by decide +kernel))
  obtain ⟨main, rest, rfl, -, hmain, hrest⟩ := hconverged methods s' h
  obtain _ | ⟨⟨-, hf⟩, hnil⟩ := hrest
  cases hnil
  exact ⟨hbare, by decide, main, _, s', h, hmain, hf.mpr (by decide)⟩

/-- The fewest registers there may be, with formals travelling in more than these. -/
def threeRegisters : Config := { registers := 3 }

/-- **Three registers are not enough** for the entry of a method with two parameters,
although the configuration is valid and the program is compiled. -/
theorem not_converged_bareProgram : threeRegisters.Valid ∧ bareProgram.Bare ∧
    ∃ main f s', Yields (ofProgram false bareProgram) (.new threeRegisters) [main, f] s' ∧
      f.name = "A@f" ∧ f.allocation.converged = false := by
  have hbare : bareProgram.Bare := ⟨rfl, by decide, by simp [bareProgram]⟩
  refine ⟨by decide, hbare, ?_⟩
  obtain ⟨table, u, htable⟩ : ∃ table u,
      Yields (ClassTable.build bareProgram) (.new threeRegisters) table u :=
    exists_yields_of_isOk (by decide +kernel)
  obtain ⟨trees, v, htrees⟩ := hbare.exists_ofProgram htable
  obtain ⟨methods, s', h, -⟩ := CompiledMethod.exists_ofProgram (by decide) htable htrees
  obtain ⟨main, rest, rfl, -, -, hrest⟩ := forall₂_entryDecides hbare (by decide) h
  obtain _ | ⟨⟨hname, hf⟩, hnil⟩ := hrest
  cases hnil
  refine ⟨main, _, s', h, hname, Bool.eq_false_iff.mpr fun htrue => ?_⟩
  exact absurd (hf.mp htrue) (by decide)

end CompiledMethod

end TreeBackend
