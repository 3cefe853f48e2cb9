import TreeBackend.Proofs.Lockstep
import TreeBackend.Proofs.TreeRenaming

/-!
# Canonical forms and blocks of renamed trees

The stages on trees follow a renaming. Canonicalization draws its holders in the same
places, and whether a value has to be held does not depend on the temps in it. Which
fresh labels the blocks of a body get does depend on the session; but once the blocks
are laid out again none of them is left, so what comes out is the renamed body.
-/

namespace TreeBackend

open List

variable {ρ : Temp.Renaming} {known : List Label}

/-! ## Expressions -/

namespace Exp

@[simp] theorem isLeaf_mapTemps (e : Exp) : (e.mapTemps ρ).isLeaf = e.isLeaf := by cases e <;> rfl

@[simp] theorem commutes_mapTemps (e : Exp) : (e.mapTemps ρ).commutes = e.commutes := by
  induction e using commutes.induct with
  | case1 address ih => exact ih
  | case2 e hne => cases e <;> first | rfl | exact absurd rfl (hne _)

mutual

@[simp] theorem hasEseq_mapTemps (e : Exp) : (e.mapTemps ρ).hasEseq = e.hasEseq := by
  cases e with
  | const | name | temp | eseq => rfl
  | binop op l r => rw [mapTemps, hasEseq, l.hasEseq_mapTemps, r.hasEseq_mapTemps, hasEseq]
  | not e | mem e => exact e.hasEseq_mapTemps
  | call f args =>
    rw [mapTemps, hasEseq, f.hasEseq_mapTemps, Exp.hasEseqAny_mapTempsAll args, hasEseq]

theorem hasEseqAny_mapTempsAll (es : List Exp) : hasEseqAny (mapTempsAll ρ es) = hasEseqAny es := by
  cases es with
  | nil => rfl
  | cons e es =>
    rw [mapTempsAll, hasEseqAny, e.hasEseq_mapTemps, Exp.hasEseqAny_mapTempsAll es, hasEseqAny]

end

end Exp

/-! ## Canonical forms -/

namespace Staged

/-- The parts with other temps in them. -/
def mapTemps (ρ : Temp → Temp) (p : Staged) : Staged :=
  ⟨p.effects.map (Stm.mapTemps ρ), p.value.mapTemps ρ⟩

@[simp] theorem hasEffects_mapTemps (p : Staged) : (p.mapTemps ρ).hasEffects = p.hasEffects := by
  rw [hasEffects, mapTemps, isEmpty_map, hasEffects]

theorem any_hasEffects_map (ps : List Staged) :
    (ps.map (mapTemps ρ)).any hasEffects = ps.any hasEffects := by
  rw [any_map]
  exact congrArg ps.any (funext hasEffects_mapTemps)

/-- The holders that are drawn correspond. -/
theorem inStep_hold (p : Staged) :
    InStep (Session.Mirrors ρ known) (fun a b => b = a.mapTemps ρ) p.hold (p.mapTemps ρ).hold := by
  refine (Session.inStep_drawTemp .holder).bind_eq fun t => .pure ?_
  simp only [mapTemps, map_append, map_cons, map_nil, Stm.mapTemps, Exp.mapTemps]

theorem inStep_holdCall (p : Staged) :
    InStep (Session.Mirrors ρ known) (fun a b => b = a.mapTemps ρ) p.holdCall
      (p.mapTemps ρ).holdCall := by
  obtain ⟨effects, value⟩ := p
  cases value with
  | call f args => exact inStep_hold _
  | const | name | temp | binop | not | mem | eseq => exact .pure rfl

theorem inStep_protect (later : Bool) (p : Staged) :
    InStep (Session.Mirrors ρ known) (fun a b => b = a.mapTemps ρ) (p.protect later)
      ((p.mapTemps ρ).protect later) := by
  unfold Staged.protect
  rw [show (p.mapTemps ρ).value.commutes = p.value.commutes from p.value.commutes_mapTemps]
  split
  · exact p.inStep_hold
  · exact .pure rfl

/-- Operands are protected in step. -/
theorem inStep_protectAll (ps : List Staged) :
    InStep (Session.Mirrors ρ known) (fun a b => b = a.map (mapTemps ρ)) (protectAll ps)
      (protectAll (ps.map (mapTemps ρ))) := by
  induction ps with
  | nil => exact .pure rfl
  | cons p ps ih =>
    refine ih.bind_eq fun ps => ?_
    rw [any_hasEffects_map]
    exact (p.inStep_protect _).bind_eq fun _ => .pure rfl

theorem inStep_combine {make make' : Exp → Exp → Exp}
    (hmake : ∀ l r, make' (l.mapTemps ρ) (r.mapTemps ρ) = (make l r).mapTemps ρ) (l r : Staged) :
    InStep (Session.Mirrors ρ known) (fun a b => b = a.mapTemps ρ) (l.combine make r)
      ((l.mapTemps ρ).combine make' (r.mapTemps ρ)) := by
  unfold combine
  rw [hasEffects_mapTemps]
  refine (l.inStep_protect _).bind_eq fun l => .pure ?_
  simp only [mapTemps, map_append, hmake]

theorem inStep_combineCall (f : Staged) (args : List Staged) :
    InStep (Session.Mirrors ρ known) (fun a b => b = a.mapTemps ρ) (f.combineCall args)
      ((f.mapTemps ρ).combineCall (args.map (mapTemps ρ))) := by
  refine (inStep_protectAll args).bind_eq fun args => ?_
  rw [any_hasEffects_map]
  refine (f.inStep_protect _).bind_eq fun f => .pure ?_
  simp only [mapTemps, map_append, Exp.mapTemps, Exp.mapTempsAll_eq, map_map,
    map_flatMap, flatMap_map]
  rfl

end Staged

theorem Exp.lockstep_stagePure {e : Exp} (h : Lockstep (Session.Mirrors ρ known)
    (fun p q => q = p.mapTemps ρ) e.stage (e.mapTemps ρ).stage) :
    Lockstep (Session.Mirrors ρ known) (fun p q => q = p.mapTemps ρ) e.stagePure
      (e.mapTemps ρ).stagePure :=
  h.bind_eq fun p => .lift p.inStep_holdCall

mutual

/-- **Expressions are staged in step.** -/
theorem Exp.lockstep_stage (e : Exp) :
    Lockstep (Session.Mirrors ρ known) (fun p q => q = p.mapTemps ρ) e.stage
      (e.mapTemps ρ).stage := by
  cases e with
  | const | name | temp => exact .pure rfl
  | binop op l r =>
    exact l.lockstep_stage.bind_eq fun p => (Lockstep.lift p.inStep_holdCall).bind_eq fun l =>
      r.lockstep_stage.bind_eq fun p => (Lockstep.lift p.inStep_holdCall).bind_eq fun r =>
        .lift (l.inStep_combine (fun _ _ => rfl) r)
  | not e | mem e =>
    exact e.lockstep_stage.bind_eq fun p => (Lockstep.lift p.inStep_holdCall).bind_eq fun _ =>
      .pure rfl
  | call f args =>
    exact f.lockstep_stage.bind_eq fun p => (Lockstep.lift p.inStep_holdCall).bind_eq fun f =>
      (Exp.lockstep_stageAll args).bind_eq fun ps => .lift (f.inStep_combineCall ps)
  | eseq s e =>
    refine s.lockstep_canonicalize.bind_eq fun s => e.lockstep_stage.bind_eq fun p =>
      (Lockstep.lift p.inStep_holdCall).bind_eq fun p => .pure ?_
    simp only [Staged.mapTemps, map_append, Stm.isNop_mapTemps]
    split
    · rfl
    · rfl

/-- So are operands. -/
theorem Exp.lockstep_stageAll (es : List Exp) :
    Lockstep (Session.Mirrors ρ known) (fun ps qs => qs = ps.map (Staged.mapTemps ρ))
      (Exp.stageAll es) (Exp.stageAll (Exp.mapTempsAll ρ es)) := by
  cases es with
  | nil => exact .pure rfl
  | cons e es =>
    exact e.lockstep_stage.bind_eq fun p => (Lockstep.lift p.inStep_holdCall).bind_eq fun _ =>
      (Exp.lockstep_stageAll es).map fun _ _ h => h ▸ rfl

/-- So are moves, if their sources are. -/
theorem Exp.lockstep_moveInto (dst : Exp) {src src' : CompileM Staged}
    (hsrc : Lockstep (Session.Mirrors ρ known) (fun p q => q = p.mapTemps ρ) src src') :
    Lockstep (Session.Mirrors ρ known) (fun s s' => s' = s.mapTemps ρ) (dst.moveInto src)
      ((dst.mapTemps ρ).moveInto src') := by
  cases dst with
  | temp t =>
    refine hsrc.bind_eq fun p => .pure ?_
    simp only [Staged.andThen, Staged.mapTemps, Stm.mapTemps_seqAll, map_append]
    rfl
  | mem address =>
    refine address.lockstep_stage.bind_eq fun p =>
      (Lockstep.lift p.inStep_holdCall).bind_eq fun address => hsrc.bind_eq fun p =>
        (Lockstep.lift p.inStep_holdCall).bind_eq fun value => ?_
    rw [Staged.hasEffects_mapTemps]
    refine (Lockstep.lift (address.inStep_protect _)).bind_eq fun address => .pure ?_
    simp only [Staged.mapTemps, Stm.mapTemps_seqAll, map_append]
    rfl
  | eseq s dst =>
    refine s.lockstep_canonicalize.bind_eq fun s => (dst.lockstep_moveInto hsrc).bind_eq fun rest =>
      .pure ?_
    rw [Stm.mapTemps_seqAll]
    rfl
  | const | name | binop | not | call => exact .throw _ _

/-- **Canonical forms of renamed statements** are the renamed canonical forms. -/
theorem Stm.lockstep_canonicalize (s : Stm) :
    Lockstep (Session.Mirrors ρ known) (fun s s' => s' = s.mapTemps ρ) s.canonicalize
      (s.mapTemps ρ).canonicalize := by
  cases s with
  | seq a b =>
    rw [Stm.mapTemps, Stm.canonicalize_seq, Stm.canonicalize_seq]
    refine a.lockstep_canonicalize.bind_eq fun a => b.lockstep_canonicalize.bind_eq fun b =>
      .pure ?_
    rw [Stm.mapTemps_seqAll]
    rfl
  | jump | label =>
    simp only [Stm.mapTemps, Stm.canonicalize]
    exact .pure rfl
  | exp e =>
    rw [Stm.mapTemps, Stm.canonicalize_exp, Stm.canonicalize_exp]
    refine e.lockstep_stage.bind_eq fun p => .pure ?_
    simp only [Staged.mapTemps, Stm.mapTemps_seqAll, map_append, Exp.isLeaf_mapTemps]
    split
    · rfl
    · rfl
  | move dst src =>
    rw [Stm.mapTemps, Stm.canonicalize_move, Stm.canonicalize_move]
    exact dst.lockstep_moveInto src.lockstep_stage
  | cjump rel l r target =>
    rw [Stm.mapTemps, Stm.canonicalize_cjump, Stm.canonicalize_cjump]
    refine (Exp.lockstep_stagePure l.lockstep_stage).bind_eq fun l =>
      (Exp.lockstep_stagePure r.lockstep_stage).bind_eq fun r => ?_
    rw [Staged.hasEffects_mapTemps]
    refine (Lockstep.lift (l.inStep_protect _)).bind_eq fun l => .pure ?_
    simp only [Staged.mapTemps, Stm.mapTemps_seqAll, map_append]
    rfl

end

/-! ## Linear bodies and blocks -/

namespace Stm

@[simp] theorem placed?_mapTemps (s : Stm) : (s.mapTemps ρ).placed? = s.placed? := by
  cases s <;> rfl

@[simp] theorem target?_mapTemps (s : Stm) : (s.mapTemps ρ).target? = s.target? := by
  cases s <;> rfl

theorem flatten_mapTemps (s : Stm) : (s.mapTemps ρ).flatten = s.flatten.map (mapTemps ρ) := by
  induction s using flatten.induct with
  | case1 a b iha ihb => rw [mapTemps, flatten, iha, ihb, flatten, map_append]
  | case2 s hne => cases s <;> first | rfl | exact absurd rfl (hne _ _)

theorem isIdle_mapTemps (s : Stm) : (s.mapTemps ρ).isIdle = s.isIdle := by
  cases s with
  | exp e => exact e.isLeaf_mapTemps
  | move | jump | cjump | label | seq => rfl

theorem checkPlain_mapTemps (s : Stm) : (s.mapTemps ρ).checkPlain = s.checkPlain := by
  have hkind : (s.mapTemps ρ).kind = s.kind := by cases s <;> rfl
  have heseq : (s.mapTemps ρ).operands.any Exp.hasEseq = s.operands.any Exp.hasEseq := by
    cases s <;> simp [mapTemps, operands]
  rw [checkPlain, heseq, hkind, checkPlain]

/-- Linearization looks at no temp. -/
theorem linearize_mapTemps (s : Stm) :
    (s.mapTemps ρ).linearize = s.linearize.map (List.map (mapTemps ρ)) := by
  have hfilter : (s.flatten.map (mapTemps ρ)).filter (fun s => !s.isIdle)
      = (s.flatten.filter fun s => !s.isIdle).map (mapTemps ρ) := by
    rw [filter_map]
    exact congrArg _ (filter_congr fun s _ => congrArg _ s.isIdle_mapTemps)
  unfold linearize
  rw [flatten_mapTemps, forM_eq_forM, forM_map, hfilter]
  simp only [checkPlain_mapTemps]
  cases forM s.flatten checkPlain with
  | error | ok => rfl

end Stm

namespace Block

open Stm (mapTemps)

/-- Whether a jump is a hop is told by labels alone. -/
theorem isHop_map (s : Stm) (rest : List Stm) :
    isHop (s.mapTemps ρ) (rest.map (mapTemps ρ)) = isHop s rest := by
  cases s with
  | jump l =>
    cases rest with
    | nil => rfl
    | cons next rest => cases next <;> rfl
  | move | exp | cjump | label | seq => rfl

theorem withoutHops_map (stms : List Stm) :
    withoutHops (stms.map (mapTemps ρ)) = (withoutHops stms).map (mapTemps ρ) := by
  induction stms with
  | nil => rfl
  | cons s rest ih =>
    rw [map_cons, withoutHops, isHop_map, ih, withoutHops]
    split
    · rfl
    · rfl

theorem filterMap_target?_map (stms : List Stm) :
    (stms.map (mapTemps ρ)).filterMap Stm.target? = stms.filterMap Stm.target? := by
  rw [filterMap_map]
  exact filterMap_congr fun s _ => s.target?_mapTemps

/-- Tidying up looks at labels alone. -/
theorem tidied_map (stms : List Stm) :
    tidied (stms.map (mapTemps ρ)) = (tidied stms).map (mapTemps ρ) := by
  rw [tidied, withoutHops_map, dropUnusedLabels_eq, filterMap_target?_map, filter_map, tidied,
    dropUnusedLabels_eq]
  refine congrArg _ (filter_congr fun s _ => ?_)
  rw [Function.comp_apply, staysFor, Stm.placed?_mapTemps, staysFor]

theorem checkTargetsBy_map (pick : List Label → Option Label) (stms : List Stm) :
    checkTargetsBy pick (stms.map (mapTemps ρ)) = checkTargetsBy pick stms := by
  have hplaced : (stms.map (mapTemps ρ)).filterMap Stm.placed? = stms.filterMap Stm.placed? := by
    rw [filterMap_map]
    exact filterMap_congr fun s _ => s.placed?_mapTemps
  rw [checkTargetsBy, hplaced, filterMap_target?_map, checkTargetsBy]

/-- However they are cut, the blocks of a body and of the renamed body are laid out as
what is left of the two bodies when they are tidied up. -/
theorem inStep_cut {stms : List Stm}
    (hknown : ∀ stm ∈ stms, ∀ l, stm.target? = some l → l ∈ known) :
    InStep (Session.Mirrors ρ known) (fun blocks blocks' => layout blocks = tidied stms ∧
        layout blocks' = tidied (stms.map (mapTemps ρ)))
      (cut stms) (cut (stms.map (mapTemps ρ))) := by
  intro s t h
  refine ⟨⟨layout_cut fun stm hstm l hl => (h.knows l (hknown stm hstm l hl)).1,
    layout_cut fun stm hstm l hl => ?_⟩, h.grow (cutFrom_continues [] stms s)
    (cutFrom_continues [] _ t) (tempCount_cutFrom [] stms s) (tempCount_cutFrom [] _ t)⟩
  obtain ⟨stm, hmem, rfl⟩ := mem_map.mp hstm
  exact (h.knows l (hknown stm hmem l (stm.target?_mapTemps ▸ hl))).2

/-- **Reblocking** renamed bodies whose jumps lead to labels that are known. -/
theorem lockstep_reblock {stms : List Stm}
    (hknown : ∀ stm ∈ stms, ∀ l, stm.target? = some l → l ∈ known) :
    Lockstep (Session.Mirrors ρ known) (fun out out' => out' = out.map (mapTemps ρ)) (reblock stms)
      (reblock (stms.map (mapTemps ρ))) := by
  refine (Lockstep.lift (inStep_cut hknown)).bind fun blocks blocks' ⟨hlayout, hlayout'⟩ => ?_
  dsimp only
  rw [hlayout, hlayout', tidied_map, checkTargetsBy_map]
  exact (Lockstep.liftExcept id (congrFun Except.map_id _).symm).map fun _ _ _ => rfl

end Block

end TreeBackend
