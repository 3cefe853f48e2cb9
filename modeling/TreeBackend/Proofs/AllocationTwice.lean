import TreeBackend.Proofs.GraphsTwice
import TreeBackend.Proofs.AllocationReports

/-!
# Allocating registers for renamed code

Rounds of spilling follow a renaming: renamed code sends the renamed temps to the same
words of the frame, and draws temps that correspond. When every temp has found a
register no temp is left to be shown, and the listing of the renamed code is the
listing of the code (`Allocation.Mirrors.listing_eq`).
-/

namespace TreeBackend

open List Function

variable {ρ : Temp.Renaming} {known : List Label}

/-! ## Spill code -/

/-- Frames that hand out the same words. -/
structure Frame.SameWords (f f' : Frame) : Prop where
  wordSize : f'.wordSize = f.wordSize
  localTop : f'.localTop = f.localTop

theorem Instruction.renameUses_mapTemps (old new : Temp) (i : Instruction) :
    (i.mapTemps ρ).renameUses (ρ old) (ρ new) = (i.renameUses old new).mapTemps ρ := by
  simp only [renameUses, mapTemps, map_map]
  congr 1
  refine map_congr_left fun t _ => ?_
  simp only [comp_apply, ρ.eq_iff, apply_ite ρ]

theorem Instruction.renameDefs_mapTemps (old new : Temp) (i : Instruction) :
    (i.mapTemps ρ).renameDefs (ρ old) (ρ new) = (i.renameDefs old new).mapTemps ρ := by
  simp only [renameDefs, mapTemps, map_map]
  congr 1
  refine map_congr_left fun t _ => ?_
  simp only [comp_apply, ρ.eq_iff, apply_ite ρ]

namespace SpillCode

variable {slots slots' : TempMap Int64}

/-- Corresponding temps get the same words. -/
theorem reserve_map (temps : List Temp) {f f' : Frame} (hslots : ∀ t, slots'[ρ t]? = slots[t]?)
    (hframe : f.SameWords f') :
    (∀ t, (reserve (temps.map ρ) slots' f').1[ρ t]? = (reserve temps slots f).1[t]?) ∧
      (reserve temps slots f).2.SameWords (reserve (temps.map ρ) slots' f').2 := by
  induction temps generalizing slots slots' f f' with
  | nil => exact ⟨hslots, hframe⟩
  | cons t temps ih =>
    refine ih (fun u => ?_) ⟨hframe.wordSize, congrArg₂ (· + ·) hframe.localTop hframe.wordSize⟩
    rw [Std.ExtTreeMap.getElem?_insert, Std.ExtTreeMap.getElem?_insert, ρ.compare_eq, hslots]
    exact congrArg (if compare t u = .eq then some · else slots[u]?) hframe.localTop

theorem mapTemps_slotAddress (offset : Int64) :
    (slotAddress offset).mapTemps ρ = slotAddress offset := by
  simp [slotAddress, Address.mapTemps]

/-- The instruction under way with other temps in it. -/
def Wrapped.mapTemps (ρ : Temp → Temp) (w : Wrapped) : Wrapped where
  before := w.before.map (.mapTemps ρ)
  instruction := w.instruction.mapTemps ρ
  after := w.after.map (.mapTemps ρ)

/-- Read `fresh`, loaded from the word at `offset`, in the place of `t`. -/
def Wrapped.loading (w : Wrapped) (t fresh : Temp) (offset : Int64) : Wrapped :=
  if t ∈ w.instruction.uses then
    { w with
      before := w.before ++ [.load fresh (slotAddress offset)]
      instruction := w.instruction.renameUses t fresh }
  else w

/-- Write `fresh`, stored to the word at `offset`, in the place of `t`. -/
def Wrapped.storing (w : Wrapped) (t fresh : Temp) (offset : Int64) : Wrapped :=
  if t ∈ w.instruction.defs then
    { w with
      instruction := w.instruction.renameDefs t fresh
      after := w.after ++ [.store (slotAddress offset) fresh] }
  else w

theorem Wrapped.replace_eq (w : Wrapped) (t fresh : Temp) (offset : Int64) :
    w.replace t fresh offset = (w.loading t fresh offset).storing t fresh offset := rfl

theorem Wrapped.loading_mapTemps (w : Wrapped) (t fresh : Temp) (offset : Int64) :
    (w.mapTemps ρ).loading (ρ t) (ρ fresh) offset = (w.loading t fresh offset).mapTemps ρ := by
  have hload : Instruction.load (ρ fresh) (slotAddress offset)
      = (Instruction.load fresh (slotAddress offset)).mapTemps ρ := by
    rw [← Instruction.load_mapTemps, mapTemps_slotAddress]
  have huses : ρ t ∈ (w.mapTemps ρ).instruction.uses ↔ t ∈ w.instruction.uses := ρ.mem_map
  simp only [loading, huses, hload]
  split
  · simp only [mapTemps, Instruction.renameUses_mapTemps, map_append, map_cons, map_nil]
  · rfl

theorem Wrapped.storing_mapTemps (w : Wrapped) (t fresh : Temp) (offset : Int64) :
    (w.mapTemps ρ).storing (ρ t) (ρ fresh) offset = (w.storing t fresh offset).mapTemps ρ := by
  have hstore : Instruction.store (slotAddress offset) (ρ fresh)
      = (Instruction.store (slotAddress offset) fresh).mapTemps ρ := by
    rw [← Instruction.store_mapTemps, mapTemps_slotAddress]
  have hdefs : ρ t ∈ (w.mapTemps ρ).instruction.defs ↔ t ∈ w.instruction.defs := ρ.mem_map
  simp only [storing, hdefs, hstore]
  split
  · simp only [mapTemps, Instruction.renameDefs_mapTemps, map_append, map_cons, map_nil]
  · rfl

theorem Wrapped.replace_mapTemps (w : Wrapped) (t fresh : Temp) (offset : Int64) :
    (w.mapTemps ρ).replace (ρ t) (ρ fresh) offset = (w.replace t fresh offset).mapTemps ρ := by
  rw [replace_eq, loading_mapTemps, storing_mapTemps, ← replace_eq]

theorem inStep_replaceAll (hslots : ∀ t, slots'[ρ t]? = slots[t]?) (temps : List Temp)
    (w : Wrapped) :
    InStep (Session.Mirrors ρ known) (fun a b => b = (a.1.mapTemps ρ, a.2.map ρ))
      (replaceAll slots temps w) (replaceAll slots' (temps.map ρ) (w.mapTemps ρ)) := by
  induction temps generalizing w with
  | nil => exact .pure rfl
  | cons t temps ih =>
    rw [map_cons, replaceAll, replaceAll, hslots]
    cases slots[t]? with
    | none => exact ih w
    | some offset =>
      refine (Session.inStep_drawTemp _).bind_eq fun fresh => ?_
      rw [Wrapped.replace_mapTemps]
      exact (ih _).bind_eq fun _ => .pure rfl

theorem mentioned_mapTemps (i : Instruction) : mentioned (i.mapTemps ρ) = (mentioned i).map ρ := by
  have hfold (temps seen : List Temp) :
      (temps.map ρ).foldl (fun seen t => if t ∈ seen then seen else seen ++ [t]) (seen.map ρ)
        = (temps.foldl (fun seen t => if t ∈ seen then seen else seen ++ [t]) seen).map ρ := by
    induction temps generalizing seen with
    | nil => rfl
    | cons t temps ih =>
      rw [map_cons, foldl_cons, foldl_cons, ← ih]
      simp only [ρ.mem_map]
      split
      · rfl
      · rw [map_append]
        rfl
  have hall : (i.mapTemps ρ).uses ++ (i.mapTemps ρ).defs = (i.uses ++ i.defs).map ρ :=
    (map_append ..).symm
  rw [mentioned, hall]
  exact hfold _ []

theorem inStep_routeAll (hslots : ∀ t, slots'[ρ t]? = slots[t]?) (code : List Instruction) :
    InStep (Session.Mirrors ρ known) (fun a b => b = (a.1.map (Instruction.mapTemps ρ), a.2.map ρ))
      (routeAll slots code) (routeAll slots' (code.map (Instruction.mapTemps ρ))) := by
  induction code with
  | nil => exact .pure rfl
  | cons i code ih =>
    rw [map_cons, routeAll, routeAll, mentioned_mapTemps]
    refine (inStep_replaceAll hslots (mentioned i) { instruction := i }).bind_eq fun (w, temps) =>
      ih.bind_eq fun (code, more) => .pure ?_
    simp only [Wrapped.mapTemps, map_append, map_cons]

/-- **Spill code is made in step.** -/
theorem inStep_ofCode (code : List Instruction) (spilled : List Temp) {f f' : Frame}
    (hframe : f.SameWords f') :
    InStep (Session.Mirrors ρ known)
      (fun a b => b.1.instructions = a.1.instructions.map (.mapTemps ρ) ∧
        b.1.temps = a.1.temps.map ρ ∧ a.2.SameWords b.2)
      (ofCode code spilled f) (ofCode (code.map (Instruction.mapTemps ρ)) (spilled.map ρ) f') := by
  have hempty (t : Temp) : (∅ : TempMap Int64)[ρ t]? = (∅ : TempMap Int64)[t]? := rfl
  obtain ⟨hslots, hframe'⟩ := reserve_map spilled hempty hframe
  exact (inStep_routeAll hslots code).bind_eq fun _ => .pure ⟨rfl, rfl, hframe'⟩

end SpillCode

/-! ## Rounds -/

namespace Allocation

/-- The second allocation has come as far as the first, with renamed code. -/
structure Progress.Mirrors (ρ : Temp.Renaming) (p p' : Progress) : Prop where
  instructions : p'.instructions = p.instructions.map (.mapTemps ρ)
  frame : p.frame.SameWords p'.frame
  spillTemps : p'.spillTemps = .rename ρ p.spillTemps

variable {p p' : Progress}

theorem inStep_spill (h : p.Mirrors ρ p') (temps : List Temp) :
    InStep (Session.Mirrors ρ known) (Progress.Mirrors ρ) (p.spill temps)
      (p'.spill (temps.map ρ)) := by
  have hinsert (temps : List Temp) (set : TempSet) :
      (temps.map ρ).foldl (fun set t => set.insert t) (.rename ρ set)
        = TempSet.rename ρ (temps.foldl (fun set t => set.insert t) set) := by
    induction temps generalizing set with
    | nil => rfl
    | cons t temps ih => rw [map_cons, foldl_cons, ← TempSet.rename_insert, ih]; rfl
  refine (Session.inStep_count _ _).bind fun _ _ _ => ?_
  rw [h.instructions]
  refine (SpillCode.inStep_ofCode p.instructions temps h.frame).bind ?_
  rintro ⟨code, frame⟩ ⟨code', frame'⟩ ⟨hcode, htemps, hframe⟩
  refine .pure ⟨hcode, hframe, ?_⟩
  rw [htemps, h.spillTemps, hinsert]

/-- Whether code is coloured without spills decides whether its temps have registers. -/
theorem lockstep_attempt (h : p.Mirrors ρ p') (registers : Nat) :
    Lockstep (Session.Mirrors ρ known) (fun r r' => r.coloring.Mirrors ρ r'.coloring ∧
      (r.coloring.spilled = [] → ∀ i ∈ p.instructions, ∀ t ∈ i.uses ++ i.defs,
        t.isFramePointer = false → ∃ c < registers, r.coloring.colors[t]? = some c))
      (attempt p registers) (attempt p' registers) := by
  unfold attempt
  rw [h.instructions, h.spillTemps]
  refine (Liveness.lockstep_analyze p.instructions).bind_eq fun live => ?_
  rw [Interference.build_mapTemps]
  refine (Lockstep.lift (Session.inStep_count _ _)).map fun _ _ _ => ?_
  refine ⟨Interference.colorAvoiding_mapTemps _ registers _, fun hspilled i hi t ht hfp => ?_⟩
  obtain ⟨n, hn⟩ := Option.isSome_iff_exists.mp
    (Interference.isSome_index?_build p.instructions live registers hi ht hfp)
  obtain ⟨c, hc, -, hcolor⟩ := Interference.exists_color_of_spilled_eq_nil
    (Interference.nodes_build p.instructions live registers)
    (Interference.wellFormed_build p.instructions live registers) hspilled hn
  exact ⟨c, hc, hcolor⟩

/-- The temps to spill correspond. -/
theorem candidates_mirrors (h : p.Mirrors ρ p') {r r' : Round}
    (hcoloring : r.coloring.Mirrors ρ r'.coloring) : r'.candidates p' = (r.candidates p).map ρ := by
  have hcontains (t : Temp) :
      (TempSet.rename ρ p.spillTemps).contains (ρ t) = p.spillTemps.contains t := by
    rw [Bool.eq_iff_iff]
    exact TempSet.apply_mem_rename
  rw [Round.candidates, hcoloring.spilled, h.spillTemps, filter_map, Round.candidates]
  exact congrArg _ (filter_congr fun t _ => congrArg _ (hcontains t))

/-- The second allocation is the first one of renamed code: it has converged if the first
one has, and then a renamed temp has the register of the temp. -/
structure Mirrors (ρ : Temp.Renaming) (a a' : Allocation) : Prop where
  instructions : a'.instructions = a.instructions.map (.mapTemps ρ)
  converged : a'.converged = a.converged
  registers : a.converged = true → ∀ i ∈ a.instructions, ∀ t ∈ i.uses ++ i.defs,
    t.isFramePointer = false → ∃ r, a.registerOf? t = some r ∧ a'.registerOf? (ρ t) = some r

theorem inStep_finish {p p' : Progress} (h : p.Mirrors ρ p') {r r' : Round}
    (hcoloring : r.coloring.Mirrors ρ r'.coloring) {registers : Nat}
    (hle : registers ≤ Config.maxRegisters)
    (hsettled : r.coloring.spilled = [] → ∀ i ∈ p.instructions, ∀ t ∈ i.uses ++ i.defs,
      t.isFramePointer = false → ∃ c < registers, r.coloring.colors[t]? = some c) :
    InStep (Session.Mirrors ρ known) (Mirrors ρ) (finish p r) (finish p' r') := by
  have hdone : r'.coloring.spilled.isEmpty = r.coloring.spilled.isEmpty := by
    rw [hcoloring.spilled, isEmpty_map]
  unfold finish
  rw [hdone]
  cases hspilled : r.coloring.spilled.isEmpty with
  | true =>
    refine .pure ⟨h.instructions, rfl, fun _ i hi t ht hfp => ?_⟩
    obtain ⟨c, hc, hcolor⟩ := hsettled (isEmpty_iff.mp hspilled) i hi t ht hfp
    obtain ⟨register, hregister⟩ : ∃ register, Register.ofColor? c = some register :=
      ⟨_, List.getElem?_eq_getElem (Nat.lt_of_lt_of_le hc hle)⟩
    refine ⟨register, ?_, ?_⟩
    · rw [registerOf?, hcolor]
      exact hregister
    · rw [registerOf?, hcoloring.colors, hcolor]
      exact hregister
  | false => exact (Session.inStep_count _ _).bind fun _ _ _ => .pure ⟨h.instructions, rfl, nofun⟩

/-- **Rounds are made in step**, as many as the bound allows. -/
theorem lockstep_iterate {registers : Nat} (hle : registers ≤ Config.maxRegisters) (bound : Nat)
    (h : p.Mirrors ρ p') :
    Lockstep (Session.Mirrors ρ known) (fun a b => Mirrors ρ a.1 b.1) (iterate registers bound p)
      (iterate registers bound p') := by
  induction bound generalizing p p' with
  | zero =>
    refine (lockstep_attempt h registers).bind ?_
    rintro r r' ⟨hcoloring, hsettled⟩
    exact (Lockstep.lift (inStep_finish h hcoloring hle hsettled)).map fun _ _ h => h
  | succ bound ih =>
    refine (lockstep_attempt h registers).bind ?_
    rintro r r' ⟨hcoloring, hsettled⟩
    dsimp only
    rw [candidates_mirrors h hcoloring, isEmpty_map]
    split
    · exact (Lockstep.lift (inStep_finish h hcoloring hle hsettled)).map fun _ _ h => h
    · exact (Lockstep.lift (inStep_spill h _)).bind fun _ _ h => ih h

end Allocation

/-- **Registers for renamed code.** -/
theorem lockstep_allocate (code : List Instruction) {f f' : Frame} (hframe : f.SameWords f') :
    Lockstep (Session.Mirrors ρ known) (fun a b => a.1.Mirrors ρ b.1) (allocate code f)
      (allocate (code.map (Instruction.mapTemps ρ)) f') := by
  refine Lockstep.bind .get fun s t h => ?_
  rw [h.config]
  exact Allocation.lockstep_iterate h.valid.2.1 _ ⟨rfl, hframe, rfl⟩

/-! ## Listings -/

namespace Instruction

theorem renderWith_mapTemps {name name' : Temp → String} {i : Instruction}
    (h : ∀ t ∈ i.uses ++ i.defs, name' (ρ t) = name t) :
    (i.mapTemps ρ).renderWith name' = i.renderWith name := by
  have hat {temps : List Temp} (htemps : ∀ t ∈ temps, name' (ρ t) = name t) (k : Nat) :
      (temps.map ρ)[k]?.map name' = temps[k]?.map name := by
    rw [List.getElem?_map, Option.map_map]
    exact Option.map_congr fun t ht => htemps t (mem_of_getElem? ht)
  have hlist {temps : List Temp} (htemps : ∀ t ∈ temps, name' (ρ t) = name t) (title : String) :
      renderTemps name' title (temps.map ρ) = renderTemps name title temps := by
    rw [renderTemps, isEmpty_map, map_map, renderTemps]
    congr 3
    exact map_congr_left fun t ht => by rw [comp_apply, htemps t ht]
  obtain ⟨huses, hdefs⟩ := forall_mem_append.mp h
  have hoperand (operand : Operand) :
      (i.mapTemps ρ).renderOperand name' operand = i.renderOperand name operand := by
    cases operand with
    | defAt k => exact congrArg (Option.getD · "?") (hat hdefs k)
    | useAt k => exact congrArg (Option.getD · "?") (hat huses k)
    | mem base? disp =>
      cases base? with
      | none => rfl
      | some k =>
        have hbase : (i.mapTemps ρ).uses[k]?.map name' = i.uses[k]?.map name := hat huses k
        simp only [renderOperand, hbase]
    | imm | targetAt | symbol => rfl
  have hoperands : i.operands.map ((i.mapTemps ρ).renderOperand name')
      = i.operands.map (i.renderOperand name) :=
    map_congr_left fun operand _ => hoperand operand
  have hlabel : (i.mapTemps ρ).label? = i.label? := rfl
  rw [renderWith, hlabel, renderWith]
  cases i.label? with
  | some l => rfl
  | none =>
    show i.opcode.mnemonic ++ (if i.operands.isEmpty then "" else " " ++ String.intercalate ", "
      (i.operands.map ((i.mapTemps ρ).renderOperand name')))
      ++ renderTemps name' "Used" (i.uses.map ρ) ++ renderTemps name' "Defined" (i.defs.map ρ) = _
    rw [hoperands, hlist huses, hlist hdefs]

end Instruction

namespace Allocation.Mirrors

variable {a a' : Allocation}

/-- **The listing of a converged allocation** names no temp. -/
theorem listing_eq (h : a.Mirrors ρ a') (hconverged : a.converged = true) :
    a'.listing = a.listing := by
  rw [listing, h.instructions, map_map, listing]
  refine congrArg String.join (map_congr_left fun i hi => ?_)
  have hrender : renderInstruction a'.colors (i.mapTemps ρ) = renderInstruction a.colors i := by
    refine Instruction.renderWith_mapTemps fun t ht => ?_
    rw [tempName, ρ.isFramePointer_apply, tempName]
    cases hfp : t.isFramePointer with
    | true => rfl
    | false =>
      obtain ⟨r, hr, hr'⟩ := h.registers hconverged i hi t ht hfp
      rw [registerOf?] at hr hr'
      rw [hr, hr']
      rfl
  rw [comp_apply, hrender]
  rfl

end Allocation.Mirrors

end TreeBackend
