import TreeBackend.Tree.Linear
import TreeBackend.Text.Printer

/-!
# Trees with other temps

Temps are placeholders: what is done to a tree hardly ever depends on which temps
stand in it. `Stm.mapTemps` puts other temps into a tree; its shape, its labels and
its constants stay.
-/

namespace TreeBackend

mutual

/-- The expression with other temps in it. -/
def Exp.mapTemps (ρ : Temp → Temp) : Exp → Exp
  | .const n => .const n
  | .name l => .name l
  | .temp t => .temp (ρ t)
  | .binop op l r => .binop op (l.mapTemps ρ) (r.mapTemps ρ)
  | .not e => .not (e.mapTemps ρ)
  | .mem address => .mem (address.mapTemps ρ)
  | .call f args => .call (f.mapTemps ρ) (Exp.mapTempsAll ρ args)
  | .eseq s e => .eseq (s.mapTemps ρ) (e.mapTemps ρ)

/-- Expressions with other temps in them. -/
def Exp.mapTempsAll (ρ : Temp → Temp) : List Exp → List Exp
  | [] => []
  | e :: es => e.mapTemps ρ :: Exp.mapTempsAll ρ es

/-- The statement with other temps in it. -/
def Stm.mapTemps (ρ : Temp → Temp) : Stm → Stm
  | .move dst src => .move (dst.mapTemps ρ) (src.mapTemps ρ)
  | .exp e => .exp (e.mapTemps ρ)
  | .jump l => .jump l
  | .cjump rel l r target => .cjump rel (l.mapTemps ρ) (r.mapTemps ρ) target
  | .label l => .label l
  | .seq a b => .seq (a.mapTemps ρ) (b.mapTemps ρ)

end

variable {ρ : Temp → Temp}

theorem Exp.mapTempsAll_eq (es : List Exp) : Exp.mapTempsAll ρ es = es.map (Exp.mapTemps ρ) := by
  induction es with
  | nil => rfl
  | cons e es ih => rw [Exp.mapTempsAll, ih, List.map_cons]

namespace Stm

@[simp] theorem isSeq_mapTemps (s : Stm) : (s.mapTemps ρ).isSeq = s.isSeq := by cases s <;> rfl

@[simp] theorem isNop_mapTemps (s : Stm) : (s.mapTemps ρ).isNop = s.isNop := by
  cases s with
  | exp e => cases e <;> rfl
  | move | jump | cjump | label | seq => rfl

theorem mapTemps_chain (stms : List Stm) :
    (chain stms).mapTemps ρ = chain (stms.map (mapTemps ρ)) := by
  induction stms with
  | nil => rfl
  | cons s stms ih =>
    cases stms with
    | nil => rfl
    | cons s' stms => exact congrArg (seq (s.mapTemps ρ)) ih

theorem mapTemps_seqAll (stms : List Stm) :
    (seqAll stms).mapTemps ρ = seqAll (stms.map (mapTemps ρ)) := by
  rw [seqAll, mapTemps_chain, seqAll, List.filter_map]
  congr 2
  refine List.filter_congr fun s _ => ?_
  rw [Function.comp_apply, isNop_mapTemps]

end Stm

end TreeBackend
