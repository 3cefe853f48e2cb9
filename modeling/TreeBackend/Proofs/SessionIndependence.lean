import TreeBackend.Proofs.AllocationTwice
import TreeBackend.Proofs.ReadTrees
import TreeBackend.Proofs.ReadingTwice

/-!
# What a session did before makes no difference

All methods of a session draw their temps from one counter and their labels from one
table, so what a method is compiled to does depend on the session. But the numbers of
the temps are all that differs: a session that has been at work mirrors a fresh one
(`Session.mirrors_of_le`), each stage follows the renaming, and a fresh label never
outlives the blocks it was drawn for. When every temp has found a register the numbers
are gone from the listing, and with them every trace of what the session did before
(`Session.serveAll_preserves_listing`).
-/

namespace TreeBackend

open List

variable {ρ : Temp.Renaming} {known : List Label}

/-! ## Labels that are jumped to -/

/-- The labels that nodes jump to. -/
def Node.targets (nodes : List Node) : List Label := nodes.filterMap Node.target?

theorem Node.targets_append (nodes nodes' : List Node) :
    targets (nodes ++ nodes') = targets nodes ++ targets nodes' := filterMap_append

mutual

theorem Exp.targets_mapTemps (e : Exp) :
    Node.targets (e.mapTemps ρ).nodes = Node.targets e.nodes := by
  cases e with
  | const | name | temp => rfl
  | not e | mem e => exact e.targets_mapTemps
  | call f args =>
    show Node.targets (_ ++ _) = Node.targets (_ ++ _)
    rw [Node.targets_append, f.targets_mapTemps, Exp.targets_mapTempsAll args, Node.targets_append]
  | binop _ a b | eseq a b =>
    show Node.targets (_ ++ _) = Node.targets (_ ++ _)
    rw [Node.targets_append, a.targets_mapTemps, b.targets_mapTemps, Node.targets_append]

theorem Exp.targets_mapTempsAll (es : List Exp) :
    Node.targets (Exp.nodesAll (Exp.mapTempsAll ρ es)) = Node.targets (Exp.nodesAll es) := by
  cases es with
  | nil => rfl
  | cons e es =>
    rw [Exp.mapTempsAll, Exp.nodesAll, Node.targets_append, e.targets_mapTemps,
      Exp.targets_mapTempsAll es, Exp.nodesAll, Node.targets_append]

theorem Stm.targets_mapTemps (s : Stm) :
    Node.targets (s.mapTemps ρ).nodes = Node.targets s.nodes := by
  cases s with
  | exp e => exact e.targets_mapTemps
  | jump | label => rfl
  | cjump rel l r target =>
    show target :: Node.targets (_ ++ _) = target :: Node.targets (_ ++ _)
    rw [Node.targets_append, l.targets_mapTemps, r.targets_mapTemps, Node.targets_append]
  | move a b | seq a b =>
    show Node.targets (_ ++ _) = Node.targets (_ ++ _)
    rw [Node.targets_append, a.targets_mapTemps, b.targets_mapTemps, Node.targets_append]

end

/-- A session knows the labels that the methods it has read jump to. -/
theorem Text.knows_of_readMethods {text : String} {ms : List MethodText} {s u : Session}
    (h : Yields (readMethods text) s ms u) {m : MethodText} (hm : m ∈ ms) :
    ∀ l ∈ Node.targets m.body.nodes, l ∈ u.labels := by
  obtain ⟨r', hmethods, rfl⟩ := yields_readMethods_iff.mp h
  obtain ⟨r, -, hcontinues, -, hbody⟩ := (hmethods.leads (Reader.inOrder_ofText text s)).2 m hm
  intro l hl
  obtain ⟨n, hn, htarget⟩ := mem_filterMap.mp hl
  have hread := hbody n hn
  refine hcontinues.labels l ?_
  cases n with
  | exp => cases htarget
  | stm stm =>
    cases stm with
    | jump | cjump =>
      obtain rfl := Option.some.inj htarget
      exact (show r.Knows _ from hread).1
    | move | exp | label | seq => cases htarget

/-! ## Compiling -/

namespace Allocation

variable {a : Allocation}

theorem error?_eq_none_iff {name : String} : a.error? name = none ↔ a.converged = true := by
  unfold error? Allocation.converged
  cases a.status <;> simp

theorem exists_error? (h : a.converged = false) (name : String) : ∃ e, a.error? name = some e := by
  refine Option.ne_none_iff_exists'.mp fun hnone => ?_
  rw [error?_eq_none_iff.mp hnone] at h
  cases h

end Allocation

namespace CompiledMethod

theorem lockstep_inferEntry {code code' : Code}
    (h : code'.instructions = code.instructions.map (.mapTemps ρ)) :
    Lockstep (Session.Mirrors ρ known)
      (fun c c' => c'.instructions = c.instructions.map (.mapTemps ρ))
      (inferEntry code) (inferEntry code') := by
  unfold inferEntry
  rw [h]
  refine (Liveness.lockstep_analyze code.instructions).bind_eq fun live => ?_
  have hentry : ((live.mapTemps ρ).before 0).toList.filter (fun t => !t.isFramePointer)
      = ((live.before 0).toList.filter fun t => !t.isFramePointer).map ρ := by
    rw [Liveness.before_mapTemps, TempSet.toList_rename, filter_map]
    exact congrArg _ (filter_congr fun t _ => congrArg _ (ρ.isFramePointer_apply t))
  rw [hentry]
  cases hcode : code.instructions with
  | nil => exact .pure h
  | cons first rest => exact .pure rfl

theorem lockstep_selectBody (body : List Stm) (exit : List Temp) :
    Lockstep (Session.Mirrors ρ known)
      (fun c c' => c'.instructions = c.instructions.map (.mapTemps ρ))
      (selectBody body ⟨none, exit⟩)
      (selectBody (body.map (Stm.mapTemps ρ)) ⟨none, exit.map ρ⟩) :=
  (Selection.lockstep_ofMethod body [] exit).bind fun _ _ h => lockstep_inferEntry h

/-- **Every stage follows the renaming**, where the session knows the labels that the body
jumps to. -/
theorem lockstep_compile (strict : Bool) (name : String) (body : Stm) {f f' : Frame}
    (hframe : f.SameWords f') (exit : List Temp) :
    Lockstep (Session.Mirrors ρ (Node.targets body.nodes))
      (fun c c' => c.allocation.Mirrors ρ c'.allocation)
      (compile strict name body f ⟨none, exit⟩)
      (compile strict name (body.mapTemps ρ) f' ⟨none, exit.map ρ⟩) := by
  refine body.lockstep_canonicalize.and_yields.bind ?_
  rintro c _ ⟨rfl, a, b, hc⟩
  refine (Lockstep.liftExcept _ c.linearize_mapTemps).and_yields.bind ?_
  rintro linear _ ⟨rfl, _, _, hlinear⟩
  have hknown : ∀ stm ∈ linear, ∀ l, stm.target? = some l → l ∈ Node.targets body.nodes := by
    rw [yields_liftExcept, Stm.linearize_of_isCanonical (body.hasForm hc).canonical] at hlinear
    obtain rfl := Except.ok.inj hlinear.1
    intro stm hstm l hl
    have hwithin := body.canonicalize_within (by exact fun _ _ => ⟨trivial, trivial⟩)
      body.within_own hc (Nat.le_refl _)
    exact mem_filterMap.mpr ((Stm.within_of_mem_linear hwithin hstm).target hl)
  refine (Lockstep.lift (Session.inStep_count _ _)).bind fun _ _ _ => ?_
  refine (Block.lockstep_reblock hknown).bind_eq fun out => ?_
  refine (lockstep_selectBody out exit).bind fun code code' hcode => ?_
  rw [hcode]
  refine (lockstep_allocate code.instructions hframe).bind ?_
  rintro ⟨allocation, frame⟩ ⟨allocation', frame'⟩ hallocation
  have hend {c c' : CompiledMethod} {add add' : Stats → Stats}
      (h : c.allocation.Mirrors ρ c'.allocation) :
      Lockstep (Session.Mirrors ρ (Node.targets body.nodes))
        (fun c c' => c.allocation.Mirrors ρ c'.allocation)
        (do Session.count add; return c : CompileM CompiledMethod)
        (do Session.count add'; return c') :=
    (Lockstep.lift (Session.inStep_count _ _)).map fun _ _ _ => h
  dsimp only at hallocation ⊢
  cases strict with
  | false => exact hend hallocation
  | true =>
    cases hconverged : allocation.converged with
    | true =>
      rw [Allocation.error?_eq_none_iff.mpr hconverged,
        Allocation.error?_eq_none_iff.mpr (hallocation.converged.trans hconverged)]
      exact hend hallocation
    | false =>
      obtain ⟨e, he⟩ := Allocation.exists_error? hconverged name
      obtain ⟨e', he'⟩ := Allocation.exists_error? (hallocation.converged.trans hconverged) name
      rw [he, he']
      exact Lockstep.bind (R := fun _ _ => True) (.throw e e') fun _ _ _ => hend hallocation

theorem lockstep_checkConfig :
    Lockstep (Session.Mirrors ρ known) (fun _ _ => True) checkConfig checkConfig := by
  refine Lockstep.bind .get fun s t h => ?_
  rw [h.config, Config.fault?_eq_none_iff.mpr h.valid]
  exact .pure trivial

theorem inStep_newFrame (name : String) :
    InStep (Session.Mirrors ρ known) Frame.SameWords (Frame.new name) (Frame.new name) :=
  fun s t h => ⟨⟨congrArg Config.wordSize h.config, rfl⟩,
    (Session.inStep_drawTemp (.plain "ret") s t h).2⟩

theorem lockstep_ofText (strict : Bool) (m : Text.MethodText) :
    Lockstep (Session.Mirrors ρ (Node.targets m.body.nodes))
      (fun c c' => c.allocation.Mirrors ρ c'.allocation) (ofText strict m)
      (ofText strict (m.mapTemps ρ)) := by
  refine lockstep_checkConfig.bind fun _ _ _ => (Lockstep.lift (inStep_newFrame m.name)).bind
    fun f f' hframe => ?_
  have hexit : ((m.mapTemps ρ).temp? resultName).toList = (m.temp? resultName).toList.map ρ := by
    rw [Text.MethodText.temp?_mapTemps, Option.toList_map]
  rw [hexit]
  exact lockstep_compile strict m.name m.body hframe _

end CompiledMethod

/-! ## Sessions at work -/

namespace Session

/-- Something that a session can be asked to do. -/
inductive Request where
  /-- Read a row of methods. -/
  | readMethods (text : String)
  /-- Read a statement. -/
  | readStm (text : String)
  /-- Compile a method read from text. -/
  | compileText (strict : Bool) (m : Text.MethodText)
  /-- Compile a method lowered from a program. -/
  | compileTree (strict : Bool) (m : MethodTree)
  /-- Compile a program. -/
  | compileProgram (strict : Bool) (program : Program)
  /-- Bring a statement into canonical form. -/
  | canonicalize (stm : Stm)
  /-- Cut a body into blocks and lay them out again. -/
  | reblock (body : List Stm)
  /-- Select the code of a body. -/
  | select (body : List Stm) (entry exit : List Temp)
  /-- Find registers for code. -/
  | allocate (code : List Instruction) (frame : Frame)
  /-- Set up a frame. -/
  | newFrame (name : String)
  /-- Draw a temp. -/
  | drawTemp (kind : Temp.Kind)
  /-- Mention a label. -/
  | nameLabel (name : String)
  /-- Draw a fresh label. -/
  | drawLabel

/-- The session after a request, whether that succeeds or fails. -/
def serve (s : Session) : Request → Session
  | .readMethods text => ((Text.readMethods text).run.run s).2
  | .readStm text => ((Text.readStm text).run.run s).2
  | .compileText strict m => ((CompiledMethod.ofText strict m).run.run s).2
  | .compileTree strict m => ((CompiledMethod.ofTree strict m).run.run s).2
  | .compileProgram strict program => ((CompiledMethod.ofProgram strict program).run.run s).2
  | .canonicalize stm => (stm.canonicalize.run.run s).2
  | .reblock body => ((Block.reblock body).run.run s).2
  | .select body entry exit => ((Selection.ofMethod body entry exit).run.run s).2
  | .allocate code frame => ((allocate code frame).run.run s).2
  | .newFrame name => ((Frame.new name).run s).2
  | .drawTemp kind => ((drawTemp kind).run s).2
  | .nameLabel name => ((namedLabel name).run s).2
  | .drawLabel => (freshLabel.run s).2

theorem continues_serve (s : Session) (request : Request) : s.Continues (s.serve request) := by
  cases request with
  | readMethods text => exact Text.growing_readMethods text s
  | readStm text => exact Text.growing_readStm text s
  | compileText strict m => exact CompiledMethod.growing_ofText strict m s
  | compileTree strict m => exact CompiledMethod.growing_compile _ _ _ _ _ s
  | compileProgram strict program => exact CompiledMethod.growing_ofProgram strict program s
  | canonicalize stm => exact stm.growing_canonicalize s
  | reblock body => exact Block.growing_reblock body s
  | select body entry exit => exact Selection.growing_ofMethod body entry exit s
  | allocate code frame =>
    have hgrows : Growing id (TreeBackend.allocate code frame) :=
      .bind .get fun _ => Allocation.growing_iterate _ _ _
    exact hgrows s
  | newFrame name => exact Frame.extending_new name s
  | drawTemp kind => exact ⟨Nat.le_succ _, fun _ h => h, rfl⟩
  | nameLabel name => exact Extending.namedLabel name s
  | drawLabel => exact Extending.freshLabel s

/-- The session after requests that came one after the other. -/
def serveAll (s : Session) (requests : List Request) : Session := requests.foldl serve s

theorem continues_serveAll (s : Session) (requests : List Request) :
    s.Continues (s.serveAll requests) := by
  induction requests generalizing s with
  | nil => exact .refl s
  | cons request requests ih => exact (s.continues_serve request).trans (ih _)

/-- The **listing** of a text in the session: there is one if it is the text of a single
method that can be compiled and every temp of which finds a register. -/
def listing? (s : Session) (strict : Bool) (text : String) : Option String :=
  match (Text.readMethods text).run.run s with
  | (.ok [m], u) =>
    match (CompiledMethod.ofText strict m).run.run u with
    | (.ok c, _) => if c.allocation.converged then some c.allocation.listing else none
    | _ => none
  | _ => none

/-- The session compiles the text, as that of a single method, to the listing. -/
def Compiles (s : Session) (strict : Bool) (text listing : String) : Prop :=
  ∃ m u c v, Yields (Text.readMethods text) s [m] u ∧
    Yields (CompiledMethod.ofText strict m) u c v ∧ c.allocation.converged = true ∧
      c.allocation.listing = listing

variable {s t u u' : Session} {strict : Bool} {text listing : String}

theorem listing?_eq_some_iff :
    s.listing? strict text = some listing ↔ s.Compiles strict text listing := by
  constructor
  · intro h
    unfold listing? at h
    split at h
    · next m u hread =>
      split at h
      · next c v hcompile =>
        split at h
        · next hconverged => exact ⟨m, u, c, v, hread, hcompile, hconverged, Option.some.inj h⟩
        · cases h
      · cases h
    · cases h
  · rintro ⟨m, u, c, v, hread, hcompile, hconverged, rfl⟩
    unfold listing?
    rw [hread]
    dsimp only
    rw [hcompile]
    dsimp only
    rw [if_pos hconverged]

/-- Only a session with a valid configuration compiles anything. -/
theorem Compiles.valid (h : s.Compiles strict text listing) : s.config.Valid := by
  obtain ⟨m, u, c, v, hread, hcompile, -⟩ := h
  obtain ⟨_, _, hcheck, -⟩ := yields_bind.mp hcompile
  have hcontinues : s.Continues u := (Text.growing_readMethods text).continues hread
  exact hcontinues.config ▸ (CompiledMethod.of_checkConfig hcheck).1

/-- Sessions that have read one method know the labels it jumps to. -/
theorem Mirrors.knowTargets {m : Text.MethodText} (h : u.Mirrors ρ [] u')
    (hread : Yields (Text.readMethods text) s [m] u)
    (hread' : Yields (Text.readMethods text) t [m.mapTemps ρ] u') :
    u.Mirrors ρ (Node.targets m.body.nodes) u' where
  valid := h.valid
  config := h.config
  draws := h.draws
  knows l hl := by
    refine ⟨Text.knows_of_readMethods hread mem_cons_self l hl,
      Text.knows_of_readMethods hread' mem_cons_self l ?_⟩
    exact m.body.targets_mapTemps.symm ▸ hl

/-- A session that mirrors another one compiles what that one compiles. -/
theorem Mirrors.compiles_iff (h : s.Mirrors ρ [] t) :
    s.Compiles strict text listing ↔ t.Compiles strict text listing := by
  have hreads : Lockstep (Mirrors ρ []) (fun ms ms' => ms' = ms.map (Text.MethodText.mapTemps ρ))
      (Text.readMethods text) (Text.readMethods text) := Text.lockstep_readMethods text
  constructor
  · rintro ⟨m, u, c, v, hread, hcompile, hconverged, rfl⟩
    obtain ⟨_, u', hread', rfl, hu⟩ := hreads.exists_yields h hread
    obtain ⟨c', v', hcompile', hc, -⟩ := (CompiledMethod.lockstep_ofText strict m).exists_yields
      (hu.knowTargets hread hread') hcompile
    exact ⟨m.mapTemps ρ, u', c', v', hread', hcompile', hc.converged.trans hconverged,
      hc.listing_eq hconverged⟩
  · rintro ⟨m', u', c', v', hread', hcompile', hconverged, rfl⟩
    obtain ⟨ms, u, hread, hms, hu⟩ := hreads.exists_yields_left h hread'
    obtain ⟨m, rfl, rfl⟩ := map_eq_singleton_iff.mp hms.symm
    obtain ⟨c, v, hcompile, hc, -⟩ := (CompiledMethod.lockstep_ofText strict m).exists_yields_left
      (hu.knowTargets hread hread') hcompile'
    have hconverged : c.allocation.converged = true := hc.converged.symm.trans hconverged
    exact ⟨m, u, c, v, hread, hcompile, hconverged, (hc.listing_eq hconverged).symm⟩

/-- **Compiling a method does not depend on what else the session did.** After any
requests, of which some may have failed, a session gives a text the listing that a fresh
session of its configuration gives it, or neither gives it one. -/
theorem serveAll_preserves_listing (config : Config) (requests : List Request) (strict : Bool)
    (text : String) :
    ((new config).serveAll requests).listing? strict text = (new config).listing? strict text := by
  have hcontinues := continues_serveAll (new config) requests
  have hconfig : ((new config).serveAll requests).config = config := hcontinues.config
  refine Option.ext fun listing => ?_
  rw [listing?_eq_some_iff, listing?_eq_some_iff]
  by_cases hvalid : config.Valid
  · exact (mirrors_of_le hvalid hconfig hcontinues.le).compiles_iff.symm
  · exact ⟨fun h => absurd (hconfig ▸ h.valid) hvalid, fun h => absurd h.valid hvalid⟩

/-- A listing after a text that cannot be read and a label that was drawn. -/
example : ((new {}).serveAll [.readMethods "(method", .drawTemp .holder, .drawLabel]).listing? true
    "(method one (move (temp ret) 1))"
      = some "    enter\n    mov eax, 1\tDefined: eax;\n    ret\tUsed: eax;\n" := by
  decide +kernel

end Session

end TreeBackend
