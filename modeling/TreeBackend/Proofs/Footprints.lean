import TreeBackend.Proofs.LiveSets
import TreeBackend.Proofs.SuccessfulRuns
import TreeBackend.Proofs.TreeDiscipline
import TreeBackend.Tree.Block

/-!
# Footprints

Where control goes and which temps are touched on the way can be said of plain
statements and of instructions in the same words. A **footprint** has just these
words: a label that is placed, labels that are jumped to, temps that are read
and temps that are written.

The first thing to ask of footprints is whether their jumps are **resolved**:
no label is placed twice, and every label that is jumped to is placed. This is
what `Block.checkTargets` asks of a body, and it decides whether code has a
control flow, and so live sets (`Liveness.exists_analyze_iff`).
-/

namespace TreeBackend

open List

/-- What control and temps see of a statement or an instruction. -/
structure Footprint where
  /-- The label that is placed. -/
  label? : Option Label := none
  /-- The labels that control may be sent to. -/
  targets : List Label := []
  /-- The temps that are read. -/
  reads : List Temp := []
  /-- The temps that are written, after all reading. -/
  writes : List Temp := []

/-! ## Temps of expressions -/

namespace Exp

/-- The temps that an expression mentions, from left to right. -/
def temps (e : Exp) : List Temp := e.nodes.filterMap Node.temp?

@[simp] theorem temps_const (n : Int64) : (const n).temps = [] := rfl

@[simp] theorem temps_temp (t : Temp) : (temp t).temps = [t] := rfl

@[simp] theorem temps_binop (op : BinOp) (l r : Exp) :
    (binop op l r).temps = l.temps ++ r.temps := filterMap_append

@[simp] theorem temps_mem (address : Exp) : (mem address).temps = address.temps := rfl

@[simp] theorem temps_call (f : Exp) (args : List Exp) :
    (call f args).temps = f.temps ++ args.flatMap temps := by
  unfold temps
  rw [nodes, filterMap_cons_none rfl, filterMap_append, nodesAll_eq, filterMap_flatMap]

end Exp

/-! ## Statements and instructions -/

/-- The footprint of a plain statement. A move into a temp writes the temp; any
other destination is evaluated. -/
def Stm.footprint : Stm → Footprint
  | .move (.temp t) src => { reads := src.temps, writes := [t] }
  | .move dst src => { reads := dst.temps ++ src.temps }
  | .exp e => { reads := e.temps }
  | .jump l => { targets := [l] }
  | .cjump _ l r target => { reads := l.temps ++ r.temps, targets := [target] }
  | .label l => { label? := some l }
  | .seq .. => {}

/-- The footprint of an instruction. -/
def Instruction.footprint (i : Instruction) : Footprint where
  label? := i.label?
  targets := i.targets
  reads := i.uses
  writes := i.defs

/-- A statement and its footprint place the same label. -/
theorem Stm.footprint_label? (s : Stm) : s.footprint.label? = s.placed? := by
  cases s with
  | move dst src => cases dst <;> rfl
  | exp | jump | cjump | label | seq => rfl

/-- They go to the same labels. -/
theorem Stm.footprint_targets (s : Stm) : s.footprint.targets = s.target?.toList := by
  cases s with
  | move dst src => cases dst <;> rfl
  | exp | jump | cjump | label | seq => rfl

/-! ## Jumps that are resolved -/

namespace Footprint

/-- The labels that are placed, in order. -/
def labels (fs : List Footprint) : List Label := fs.filterMap label?

/-- The labels that are jumped to, in order. -/
def jumps (fs : List Footprint) : List Label := fs.flatMap targets

@[simp] theorem labels_nil : labels [] = [] := rfl

@[simp] theorem labels_append (fs gs : List Footprint) :
    labels (fs ++ gs) = labels fs ++ labels gs := filterMap_append

@[simp] theorem jumps_nil : jumps [] = [] := rfl

@[simp] theorem jumps_append (fs gs : List Footprint) : jumps (fs ++ gs) = jumps fs ++ jumps gs :=
  flatMap_append

theorem labels_cons (f : Footprint) (fs : List Footprint) :
    labels (f :: fs) = f.label?.toList ++ labels fs := by
  unfold labels
  cases h : f.label? with
  | none => rw [filterMap_cons_none h]; rfl
  | some l => rw [filterMap_cons_some h]; rfl

theorem jumps_cons (f : Footprint) (fs : List Footprint) :
    jumps (f :: fs) = f.targets ++ jumps fs :=
  flatMap_cons

/-- All jumps are **resolved**: no label is placed twice, and every label that is
jumped to is placed. -/
structure Resolved (fs : List Footprint) : Prop where
  nodup : (labels fs).Nodup
  placed : ∀ l ∈ jumps fs, l ∈ labels fs

/-- Only the labels count, those placed and those jumped to. -/
theorem Resolved.congr {fs gs : List Footprint} (h : Resolved fs) (hlabels : labels gs = labels fs)
    (hjumps : jumps gs = jumps fs) : Resolved gs :=
  ⟨hlabels ▸ h.nodup, hlabels ▸ hjumps ▸ h.placed⟩

theorem labels_body (body : List Stm) :
    labels (body.map Stm.footprint) = body.filterMap Stm.placed? := by
  unfold labels
  rw [filterMap_map]
  exact filterMap_congr fun s _ => s.footprint_label?

theorem jumps_body (body : List Stm) :
    jumps (body.map Stm.footprint) = body.filterMap Stm.target? := by
  unfold jumps
  rw [flatMap_map, filterMap_eq_flatMap_toList]
  exact flatMap_congr fun s _ => s.footprint_targets

theorem labels_code (code : List Instruction) :
    labels (code.map Instruction.footprint) = code.filterMap Instruction.label? :=
  filterMap_map ..

theorem jumps_code (code : List Instruction) :
    jumps (code.map Instruction.footprint) = code.flatMap Instruction.targets :=
  flatMap_map ..

end Footprint

open Footprint

/-- No label is repeated only if none stands twice. -/
theorem Label.nodup_of_firstRepeated {labels seen : List Label}
    (h : firstRepeated seen labels = none) : labels.Nodup ∧ ∀ l ∈ labels, l ∉ seen := by
  induction labels generalizing seen with
  | nil => exact ⟨nodup_nil, by simp⟩
  | cons l labels ih =>
    rw [firstRepeated] at h
    split at h
    · cases h
    · next hnew =>
      obtain ⟨hnodup, hseen⟩ := ih h
      refine ⟨nodup_cons.mpr ⟨fun hl => hseen l hl mem_cons_self, hnodup⟩, ?_⟩
      rw [forall_mem_cons]
      exact ⟨hnew, fun l' hl' hmem => hseen l' hl' (mem_cons_of_mem _ hmem)⟩

/-- A label that is found to be repeated stands twice. -/
theorem Label.count_of_firstRepeated {labels seen : List Label} {l : Label}
    (h : firstRepeated seen labels = some l) : l ∈ labels ∧ (l ∉ seen → 1 < labels.count l) := by
  induction labels generalizing seen with
  | nil => cases h
  | cons x labels ih =>
    rw [firstRepeated] at h
    split at h
    · next hx =>
      obtain rfl := Option.some.inj h
      exact ⟨mem_cons_self, fun hl => absurd hx hl⟩
    · obtain ⟨hmem, hcount⟩ := ih h
      refine ⟨mem_cons_of_mem _ hmem, fun hl => ?_⟩
      by_cases hx : x = l
      · rw [hx, count_cons_self]
        exact Nat.succ_lt_succ (count_pos_iff.mpr hmem)
      · rw [count_cons_of_ne hx]
        exact hcount (not_mem_cons_of_ne_of_not_mem (Ne.symm hx) hl)

/-- A choice that **picks** repetitions: a label that stands in a list twice, if there
is one. -/
structure Label.Picks (pick : List Label → Option Label) : Prop where
  repeated : ∀ {labels l}, pick labels = some l → 1 < labels.count l
  nodup : ∀ {labels}, pick labels = none → labels.Nodup

/-- The first repeated label is one way to pick. -/
theorem Label.picks_firstRepeated : Picks (firstRepeated []) where
  repeated h := (count_of_firstRepeated h).2 not_mem_nil
  nodup h := (nodup_of_firstRepeated h).1

/-- **A body passes the check** exactly if its jumps are resolved, whichever repetition
is picked. -/
theorem Block.checkTargetsBy_eq_ok_iff {pick : List Label → Option Label} (hpick : Label.Picks pick)
    {body : List Stm} : checkTargetsBy pick body = .ok () ↔ Resolved (body.map Stm.footprint) := by
  constructor
  · intro h
    unfold checkTargetsBy at h
    dsimp only at h
    split at h
    · cases h
    · next hpicked =>
      split at h
      · cases h
      · next hfound =>
        refine ⟨labels_body body ▸ hpick.nodup hpicked, ?_⟩
        rw [labels_body, jumps_body]
        intro l hl
        simpa using List.find?_eq_none.mp hfound l hl
  · rintro ⟨hnodup, hplaced⟩
    rw [labels_body] at hnodup hplaced
    rw [jumps_body] at hplaced
    have hpicked : pick (body.filterMap Stm.placed?) = none := by
      refine Option.eq_none_iff_forall_ne_some.mpr fun l hl => ?_
      exact absurd (hpick.repeated hl) (Nat.not_lt.mpr (nodup_iff_count_le_one.mp hnodup l))
    have hfound : (body.filterMap Stm.target?).find? (· ∉ body.filterMap Stm.placed?) = none := by
      rw [List.find?_eq_none]
      intro l hl
      simpa using hplaced l hl
    rw [checkTargetsBy]
    simp only [hpicked, hfound]
    rfl

/-- A body that is checked has its jumps resolved. -/
theorem Block.resolved_of_checkTargets {body : List Stm} (h : checkTargets body = .ok ()) :
    Resolved (body.map Stm.footprint) :=
  (checkTargetsBy_eq_ok_iff Label.picks_firstRepeated).mp h

/-! ## Code that has live sets -/

namespace Flow

variable {code : List Instruction}

/-- A label is found in code that places it. -/
theorem isSome_labelIndex?_iff {l : Label} :
    (labelIndex? code l).isSome = true ↔ l ∈ labels (code.map Instruction.footprint) := by
  rw [labels_code, mem_filterMap, labelIndex?, List.findIdx?_isSome, any_eq_true]
  simp only [decide_eq_true_eq]

/-- The targets of an instruction are all found, or its successors are not. -/
theorem exists_foldlM_addTarget_iff {targets : List Label} {succ : List Nat} :
    (∃ succ', targets.foldlM (addTarget code) succ = .ok succ')
      ↔ ∀ l ∈ targets, (labelIndex? code l).isSome = true := by
  induction targets generalizing succ with
  | nil => simpa using ⟨succ, rfl⟩
  | cons l targets ih =>
    simp only [foldlM_cons, bind_eq_ok_iff, forall_mem_cons]
    cases hl : labelIndex? code l with
    | none =>
      rw [addTarget, hl]
      simp only [Option.isSome_none, Bool.false_eq_true, false_and, iff_false]
      rintro ⟨succ', _, hfail, -⟩
      cases hfail
    | some index =>
      rw [addTarget, hl]
      refine Iff.trans ⟨?_, ?_⟩ ((@ih (if index ∈ succ then succ else succ ++ [index])).trans
        (and_iff_right rfl).symm)
      · rintro ⟨succ', _, ⟨⟩, h⟩
        exact ⟨succ', h⟩
      · rintro ⟨succ', h⟩
        exact ⟨succ', _, rfl, h⟩

/-- A mapping that succeeds on every element succeeds. -/
theorem exists_mapM_of_forall {ε α β : Type} {f : α → Except ε β} {as : List α}
    (h : ∀ a ∈ as, ∃ b, f a = .ok b) : ∃ bs, as.mapM f = .ok bs := by
  induction as with
  | nil => exact ⟨[], rfl⟩
  | cons a as ih =>
    rw [forall_mem_cons] at h
    obtain ⟨b, hb⟩ := h.1
    obtain ⟨bs, hbs⟩ := ih h.2
    exact ⟨b :: bs, by rw [mapM_cons, hb, hbs]; rfl⟩

/-- **Code has a control flow** exactly if its jumps are resolved. -/
theorem exists_ofCode_iff :
    (∃ flow, ofCode code = .ok flow) ↔ Resolved (code.map Instruction.footprint) := by
  constructor
  · rintro ⟨flow, h⟩
    have hdescribes := describes_of_ofCode h
    unfold ofCode at h
    split at h
    · cases h
    · next hrepeated =>
      refine ⟨labels_code code ▸ (Label.nodup_of_firstRepeated hrepeated).1, fun l hl => ?_⟩
      rw [jumps_code, mem_flatMap] at hl
      obtain ⟨i, hi, hl⟩ := hl
      obtain ⟨index, hindex⟩ := mem_iff_getElem?.mp hi
      obtain ⟨n, -, -, -, hsucc⟩ := hdescribes.node hindex
      exact isSome_labelIndex?_iff.mp (exists_foldlM_addTarget_iff.mp ⟨n.succ, hsucc⟩ l hl)
  · intro h
    have hnodup := labels_code code ▸ h.nodup
    have hsucc : ∃ succ, code.zipIdx.mapM (fun entry => successors code entry.1 entry.2)
        = .ok succ := by
      refine exists_mapM_of_forall fun entry hentry =>
        exists_foldlM_addTarget_iff.mpr fun l hl => ?_
      rw [isSome_labelIndex?_iff]
      refine h.placed l ?_
      rw [jumps_code]
      exact mem_flatMap.mpr ⟨entry.1, mem_of_getElem? (mem_zipIdx_iff_getElem?.mp hentry), hl⟩
    obtain ⟨succ, hsucc⟩ := hsucc
    unfold ofCode
    rw [Label.firstRepeated_eq_none hnodup (fun _ _ => not_mem_nil)]
    exact ⟨_, bind_eq_ok_iff.mpr ⟨succ, hsucc, rfl⟩⟩

end Flow

/-- **Code has live sets** exactly if its jumps are resolved, whatever the
session. -/
theorem Liveness.exists_analyze_iff {code : List Instruction} {s : Session} :
    (∃ l s', Yields (analyze code) s l s') ↔ Resolved (code.map Instruction.footprint) := by
  rw [← Flow.exists_ofCode_iff]
  simp only [analyze, yields_bind, yields_liftExcept, yields_lift, yields_pure]
  constructor
  · rintro ⟨l, s', flow, -, ⟨hflow, -⟩, -⟩
    exact ⟨flow, hflow⟩
  · rintro ⟨flow, hflow⟩
    exact ⟨_, _, flow, s, ⟨hflow, rfl⟩, (), _, rfl, rfl, rfl⟩

end TreeBackend
