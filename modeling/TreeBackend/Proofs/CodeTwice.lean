import TreeBackend.Proofs.TreesTwice

/-!
# Code of renamed trees

Selection looks at the shapes of trees and never at the temps in them, and every temp
that it draws for a tree has a counterpart among those it draws for the renamed tree.
So the code of a renamed body is the renamed code, instruction by instruction.
-/

namespace TreeBackend

open List

variable {ρ : Temp.Renaming} {known : List Label}

/-! ## Instructions -/

/-- The address with another temp for its base. -/
def Address.mapTemps (ρ : Temp → Temp) (address : Address) : Address :=
  ⟨address.base?.map ρ, address.disp⟩

namespace Instruction

/-- The instruction with other temps in it. -/
def mapTemps (ρ : Temp → Temp) (i : Instruction) : Instruction :=
  { i with uses := i.uses.map ρ, defs := i.defs.map ρ }

theorem load_mapTemps (dst : Temp) (address : Address) :
    load (ρ dst) (address.mapTemps ρ) = (load dst address).mapTemps ρ := by
  obtain ⟨_ | base, disp⟩ := address <;> rfl

theorem store_mapTemps (address : Address) (value : Temp) :
    store (address.mapTemps ρ) (ρ value) = (store address value).mapTemps ρ := by
  obtain ⟨_ | base, disp⟩ := address <;> rfl

end Instruction

namespace Selection

theorem map_clobbers : clobbers.map ρ = clobbers := by simp [clobbers]

/-- The function with other temps in it. -/
def Callee.mapTemps (ρ : Temp → Temp) : Callee → Callee
  | direct symbol => direct symbol
  | memory address => memory (address.mapTemps ρ)
  | register target => register (ρ target)

/-- The second selection has selected the first one's code renamed, in a session that
mirrors its session. -/
structure Mirrors (ρ : Temp.Renaming) (known : List Label) (s t : Selection) : Prop where
  session : s.session.Mirrors ρ known t.session
  instructions : t.code.instructions = s.code.instructions.map (Instruction.mapTemps ρ)

/-- Instructions are emitted in step. -/
theorem lockstep_emit {i i' : Instruction} (h : i' = i.mapTemps ρ) :
    Lockstep (Mirrors ρ known) (fun _ _ => True) (emit i) (emit i') := by
  refine .modify fun s t hst => ⟨hst.session, ?_⟩
  rw [hst.instructions, h, map_append]
  rfl

/-- Temps are drawn in step. -/
theorem lockstep_fresh (name : String) :
    Lockstep (Mirrors ρ known) (fun t t' => t' = ρ t) (fresh name) (fresh name) := by
  intro s t hst
  obtain ⟨hdrawn, hsession⟩ := Session.inStep_drawTemp (.plain name) _ _ hst.session
  exact .inl ⟨_, _, _, _, rfl, rfl, hdrawn, hsession, hst.instructions⟩

/-- An instruction for a new temp. -/
theorem lockstep_set (name : String) {i i' : Temp → Instruction}
    (h : ∀ t, i' (ρ t) = (i t).mapTemps ρ) :
    Lockstep (Mirrors ρ known) (fun t t' => t' = ρ t) (do let t ← fresh name; emit (i t); return t)
      (do let t ← fresh name; emit (i' t); return t) :=
  (lockstep_fresh name).bind_eq fun t => (lockstep_emit (h t)).map fun _ _ _ => rfl

/-- A copy into a new temp, and an instruction for it. -/
theorem lockstep_copyThen (name : String) (a : Temp) {i i' : Temp → Instruction}
    (h : ∀ t, i' (ρ t) = (i t).mapTemps ρ) :
    Lockstep (Mirrors ρ known) (fun t t' => t' = ρ t)
      (do let t ← fresh name; emit (.mov t a); emit (i t); return t)
      (do let t ← fresh name; emit (.mov t (ρ a)); emit (i' t); return t) :=
  (lockstep_fresh name).bind_eq fun t => (lockstep_emit rfl).bind fun _ _ _ =>
    (lockstep_emit (h t)).map fun _ _ _ => rfl

/-! ## Covers -/

/-- Covers that are in lockstep in each of their roles. -/
structure Cover.Lockstep (ρ : Temp.Renaming) (known : List Label) (c c' : Cover) : Prop where
  value : TreeBackend.Lockstep (Mirrors ρ known) (fun t t' => t' = ρ t) c.value c'.value
  address : TreeBackend.Lockstep (Mirrors ρ known) (fun a a' => a' = a.mapTemps ρ)
    c.address c'.address
  callee : TreeBackend.Lockstep (Mirrors ρ known) (fun f f' => f' = f.mapTemps ρ) c.callee c'.callee

variable {left left' right right' whole whole' : SelectM Temp}

theorem Cover.Lockstep.ofValue
    (h : TreeBackend.Lockstep (Mirrors ρ known) (fun t t' => t' = ρ t) left left') :
    Cover.Lockstep ρ known (.ofValue left) (.ofValue left') :=
  ⟨h, h.bind_eq fun _ => .pure rfl, h.bind_eq fun _ => .pure rfl⟩

section Operators

variable (hl : Lockstep (Mirrors ρ known) (fun t t' => t' = ρ t) left left')
  (hr : Lockstep (Mirrors ρ known) (fun t t' => t' = ρ t) right right')

include hl in
theorem lockstep_arithmeticImm (opcode : Opcode) (name : String) (c : Int64) :
    Lockstep (Mirrors ρ known) (fun t t' => t' = ρ t) (arithmeticImm opcode name left c)
      (arithmeticImm opcode name left' c) :=
  hl.bind_eq fun a => lockstep_copyThen name a fun _ => rfl

include hl hr

theorem lockstep_arithmetic (opcode : Opcode) (name : String) :
    Lockstep (Mirrors ρ known) (fun t t' => t' = ρ t) (arithmetic opcode name left right)
      (arithmetic opcode name left' right') :=
  hl.bind_eq fun a => hr.bind_eq fun _ => lockstep_copyThen name a fun _ => rfl

theorem lockstep_additive (op : BinOp) (opcode : Opcode) (l r : Exp) :
    Lockstep (Mirrors ρ known) (fun t t' => t' = ρ t) (additive op opcode l r left right)
      (additive op opcode l r left' right') := by
  unfold additive
  split
  · exact lockstep_arithmeticImm hl _ _ _
  · split
    · exact lockstep_arithmeticImm hr _ _ _
    · exact lockstep_arithmetic hl hr _ _
  · exact lockstep_arithmetic hl hr _ _

theorem lockstep_remainder :
    Lockstep (Mirrors ρ known) (fun t t' => t' = ρ t) (remainder left right)
      (remainder left' right') := by
  refine hl.bind_eq fun a => hr.bind_eq fun b => ?_
  refine (lockstep_emit ?_).bind fun _ _ _ => (lockstep_emit ?_).bind fun _ _ _ =>
    (lockstep_emit ?_).bind fun _ _ _ => lockstep_set "mod" fun t => ?_
  all_goals simp [Instruction.mapTemps, Instruction.mov, Instruction.cdq, Instruction.idiv]

theorem lockstep_operation (op : BinOp) (l r : Exp) :
    Lockstep (Mirrors ρ known) (fun t t' => t' = ρ t) (operation op l r left right)
      (operation op l r left' right') := by
  unfold operation
  split
  · exact lockstep_additive hl hr _ _ l r
  · exact lockstep_additive hl hr _ _ l r
  · exact lockstep_additive hl hr _ _ l r
  · exact lockstep_additive hl hr _ _ l r
  · split
    · exact hl.bind_eq fun _ => lockstep_set "mul" fun _ => rfl
    · exact hr.bind_eq fun _ => lockstep_set "mul" fun _ => rfl
    · exact lockstep_arithmetic hl hr _ _
  · exact lockstep_remainder hl hr

theorem lockstep_displaced (op : BinOp) (l r : Exp)
    (hwhole : Lockstep (Mirrors ρ known) (fun t t' => t' = ρ t) whole whole') :
    Lockstep (Mirrors ρ known) (fun a a' => a' = a.mapTemps ρ) (displaced op l r left right whole)
      (displaced op l r left' right' whole') := by
  unfold displaced
  split
  · exact hl.bind_eq fun _ => .pure rfl
  · exact hr.bind_eq fun _ => .pure rfl
  · split
    · exact hwhole.bind_eq fun _ => .pure rfl
    · exact hl.bind_eq fun _ => .pure rfl
  · exact hwhole.bind_eq fun _ => .pure rfl

end Operators

/-- The patterns for an operator ask which operands are constants, and nothing more. -/
theorem operation_mapTemps (op : BinOp) (l r : Exp) :
    operation op (l.mapTemps ρ) (r.mapTemps ρ) = operation op l r := by
  have hadditive (opcode : Opcode) :
      additive op opcode (l.mapTemps ρ) (r.mapTemps ρ) = additive op opcode l r := by
    cases r <;> first | rfl | (cases l <;> rfl)
  cases op with
  | plus | minus | and | or => exact hadditive _
  | mul => cases r <;> first | rfl | (cases l <;> rfl)
  | mod => rfl

theorem displaced_mapTemps (op : BinOp) (l r : Exp) :
    displaced op (l.mapTemps ρ) (r.mapTemps ρ) = displaced op l r := by
  cases op <;> first | rfl | (cases r <;> first | rfl | (cases l <;> rfl))

theorem lockstep_callThrough {function function' : SelectM Callee}
    {args args' : SelectM (List Temp)}
    (hf : Lockstep (Mirrors ρ known) (fun f f' => f' = f.mapTemps ρ) function function')
    (hargs : Lockstep (Mirrors ρ known) (fun ts ts' => ts' = ts.map ρ) args args') :
    Lockstep (Mirrors ρ known) (fun _ _ => True) (callThrough function args)
      (callThrough function' args') := by
  refine hargs.bind_eq fun ts => hf.bind_eq fun f => ?_
  cases f with
  | direct symbol =>
    refine lockstep_emit ?_
    simp only [Instruction.mapTemps, Instruction.callDirect, map_clobbers]
  | register target =>
    refine lockstep_emit ?_
    simp only [Instruction.mapTemps, Instruction.callRegister, map_clobbers, map_cons]
  | memory address =>
    refine lockstep_emit ?_
    obtain ⟨_ | base, disp⟩ := address
    · simp only [Instruction.mapTemps, Instruction.callMemory, map_clobbers, map_append]
      rfl
    · simp only [Instruction.mapTemps, Instruction.callMemory, map_clobbers, map_append]
      rfl

end Selection

open Selection

mutual

/-- **The cover of a renamed expression.** -/
theorem Exp.lockstep_cover (e : Exp) : Cover.Lockstep ρ known e.cover (e.mapTemps ρ).cover := by
  cases e with
  | const c =>
    exact { Cover.Lockstep.ofValue (lockstep_set "const" fun _ => rfl) with address := .pure rfl }
  | name l =>
    exact { Cover.Lockstep.ofValue (lockstep_set "name" fun _ => rfl) with callee := .pure rfl }
  | temp t => exact .ofValue (.pure rfl)
  | mem a =>
    have hvalue : Lockstep (Selection.Mirrors ρ known) (fun t t' => t' = ρ t)
        (Exp.mem a).cover.value ((Exp.mem a).mapTemps ρ).cover.value :=
      a.lockstep_cover.address.bind_eq fun address => lockstep_set "load" fun t =>
        Instruction.load_mapTemps t address
    exact { Cover.Lockstep.ofValue hvalue with
      callee := a.lockstep_cover.address.bind_eq fun _ => .pure rfl }
  | binop op l r =>
    have hl := l.lockstep_cover.value
    have hr := r.lockstep_cover.value
    have hwhole := lockstep_operation hl hr op l r
    rw [Exp.mapTemps, Exp.cover, Exp.cover, operation_mapTemps, displaced_mapTemps]
    exact { Cover.Lockstep.ofValue hwhole with address := lockstep_displaced hl hr op l r hwhole }
  | not e =>
    exact .ofValue (e.lockstep_cover.value.bind_eq fun t => lockstep_copyThen "not" t fun _ => rfl)
  | call f args =>
    refine .ofValue ((lockstep_callThrough f.lockstep_cover.callee
      (Exp.lockstep_selectAll args)).bind fun _ _ _ => lockstep_set "call" fun t => ?_)
    simp [Instruction.mapTemps, Instruction.mov]
  | eseq s e => exact .ofValue (.throw _ _)

/-- Arguments are selected in step. -/
theorem Exp.lockstep_selectAll (es : List Exp) :
    Lockstep (Selection.Mirrors ρ known) (fun ts ts' => ts' = ts.map ρ) (Exp.selectAll es)
      (Exp.selectAll (Exp.mapTempsAll ρ es)) := by
  cases es with
  | nil => exact .pure rfl
  | cons e es =>
    exact e.lockstep_cover.value.bind_eq fun _ => (Exp.lockstep_selectAll es).map
      fun _ _ h => h ▸ rfl

end

/-! ## Statements -/

namespace Stm

theorem lockstep_selectMove (dst src : Exp) :
    Lockstep (Selection.Mirrors ρ known) (fun _ _ => True) (selectMove dst src)
      (selectMove (dst.mapTemps ρ) (src.mapTemps ρ)) := by
  have hvalue : Cover.Lockstep ρ known src.cover (src.mapTemps ρ).cover := src.lockstep_cover
  cases dst with
  | temp d =>
    cases src with
    | call f args =>
      refine (lockstep_callThrough f.lockstep_cover.callee (Exp.lockstep_selectAll args)).bind
        fun _ _ _ => lockstep_emit ?_
      simp [Instruction.mapTemps, Instruction.mov]
    | mem a =>
      exact a.lockstep_cover.address.bind_eq fun address =>
        lockstep_emit (Instruction.load_mapTemps d address)
    | const | name => exact lockstep_emit rfl
    | temp | binop | not | eseq => exact hvalue.value.bind_eq fun _ => lockstep_emit rfl
  | mem a =>
    exact hvalue.value.bind_eq fun value => a.lockstep_cover.address.bind_eq fun address =>
      lockstep_emit (Instruction.store_mapTemps address value)
  | const | name | binop | not | call | eseq => exact .throw _ _

theorem lockstep_selectBranch (rel : RelOp) (l r : Exp) (target : Label) :
    Lockstep (Selection.Mirrors ρ known) (fun _ _ => True) (selectBranch rel l r target)
      (selectBranch rel (l.mapTemps ρ) (r.mapTemps ρ) target) := by
  have hl : Cover.Lockstep ρ known l.cover (l.mapTemps ρ).cover := l.lockstep_cover
  have hr : Cover.Lockstep ρ known r.cover (r.mapTemps ρ).cover := r.lockstep_cover
  have hjump {i i' : Instruction} (opcode : Opcode) (h : i' = i.mapTemps ρ) :
      Lockstep (Selection.Mirrors ρ known) (fun _ _ => True)
        (do emit i; emit (.jump opcode target)) (do emit i'; emit (.jump opcode target)) :=
    (lockstep_emit h).bind fun _ _ _ => lockstep_emit rfl
  cases r with
  | const => exact hl.value.bind_eq fun _ => hjump _ rfl
  | name | temp | binop | not | mem | call | eseq =>
    cases l with
    | const => exact hr.value.bind_eq fun _ => hjump _ rfl
    | name | temp | binop | not | mem | call | eseq =>
      exact hl.value.bind_eq fun _ => hr.value.bind_eq fun _ => hjump _ rfl

/-- **Statements are selected in step.** -/
theorem lockstep_select (stm : Stm) :
    Lockstep (Selection.Mirrors ρ known) (fun _ _ => True) stm.select (stm.mapTemps ρ).select := by
  cases stm with
  | move dst src => exact lockstep_selectMove dst src
  | exp e =>
    have hvalue : Cover.Lockstep ρ known e.cover (e.mapTemps ρ).cover := e.lockstep_cover
    cases e with
    | call f args =>
      exact lockstep_callThrough f.lockstep_cover.callee (Exp.lockstep_selectAll args)
    | const | name | temp | binop | not | mem | eseq => exact hvalue.value.map fun _ _ _ => trivial
  | jump | label => exact lockstep_emit rfl
  | cjump rel l r target => exact lockstep_selectBranch rel l r target
  | seq => exact .throw _ _

end Stm

namespace Selection

/-- **So are bodies.** -/
theorem lockstep_stms (body : List Stm) : Lockstep (Mirrors ρ known) (fun _ _ => True) (stms body)
      (stms (body.map (Stm.mapTemps ρ))) := by
  induction body with
  | nil => exact .pure trivial
  | cons stm body ih => exact stm.lockstep_select.bind fun _ _ _ => ih

/-- The session after a selection, with its instructions counted. -/
def counted (s : Selection) : Session := { s.session with
    stats := s.code.instructions.foldl (fun stats i => stats.addInstruction i.opcode.mnemonic)
      s.session.stats }

theorem run_run (x : SelectM Unit) (s : Session) : (run x).run.run s =
    (fun r : Except Error Unit × Selection => (r.1.map (·, r.2.code), counted r.2))
      (x.run.run { session := s }) := rfl

theorem lockstep_run {x y : SelectM Unit} (h : Lockstep (Mirrors ρ known) (fun _ _ => True) x y) :
    Lockstep (Session.Mirrors ρ known)
      (fun a b => b.2.instructions = a.2.instructions.map (Instruction.mapTemps ρ))
      (run x) (run y) := by
  have hyields {x : SelectM Unit} {s : Session} {s' : Selection}
      (hx : Yields x { session := s } () s') : Yields (run x) s ((), s'.code) s'.counted := by
    rw [Yields, run_run, show x.run.run { session := s } = (.ok (), s') from hx]
    rfl
  have hfails {x : SelectM Unit} {s : Session} {e : Error}
      (hx : FailsWith x { session := s } e) : FailsWith (run x) s e := by
    rw [FailsWith, run_run]
    dsimp only
    rw [show (x.run.run { session := s }).1 = .error e from hx]
    rfl
  intro s t hst
  obtain ⟨_, s', _, t', hx, hy, -, hst'⟩ | ⟨e, e', hx, hy⟩ :=
    h { session := s } { session := t } ⟨hst, rfl⟩
  · exact .inl ⟨_, _, _, _, hyields hx, hyields hy, hst'.instructions, hst'.session.valid,
      hst'.session.config, hst'.session.draws, hst'.session.knows⟩
  · exact .inr ⟨e, e', hfails hx, hfails hy⟩

/-- **The code of a renamed body** is the renamed code. -/
theorem lockstep_ofMethod (body : List Stm) (entry exit : List Temp) :
    Lockstep (Session.Mirrors ρ known)
      (fun c c' => c'.instructions = c.instructions.map (Instruction.mapTemps ρ))
      (ofMethod body entry exit)
      (ofMethod (body.map (Stm.mapTemps ρ)) (entry.map ρ) (exit.map ρ)) :=
  (lockstep_run ((lockstep_emit rfl).bind fun _ _ _ => (lockstep_stms body).bind fun _ _ _ =>
    lockstep_emit rfl)).map fun _ _ h => h

end Selection

end TreeBackend
