import TreeBackend.Proofs.MethodStages

/-!
# Sessions grow

Every stage lets the session grow, and so do all stages of a method, of a program
and of a text, one after the other (`CompiledMethod.growing_ofProgram`,
`Text.growing_readMethods`).
-/

namespace TreeBackend

/-! ## Blocks -/

namespace Block

/-- **Reblocking** continues the session. -/
theorem growing_reblock (stms : List Stm) : Growing id (reblock stms) :=
  .bind (.lift (cutFrom_continues [] stms)) fun _ => .bind (.liftExcept _) fun _ => .pure _

end Block

/-! ## Selection -/

namespace Selection

/-- The cover continues the session in each of its roles. -/
structure Cover.Grows (c : Cover) : Prop where
  value : Growing session c.value
  address : Growing session c.address
  callee : Growing session c.callee

variable {left right whole : SelectM Temp}

theorem growing_emit (i : Instruction) : Growing session (emit i) := fun s => .refl s.session

/-- A fresh temp is one temp more. -/
theorem growing_fresh (name : String) : Growing session (fresh name) :=
  fun _ => ⟨Nat.le_succ _, fun _ h => h, rfl⟩

/-- Instructions are emitted for a new temp. -/
theorem growing_set (name : String) (i : Temp → Instruction) :
    Growing session (do let t ← fresh name; emit (i t); return t) :=
  (growing_fresh name).bind fun _ => (growing_emit _).bind fun _ => .pure _

theorem growing_copyThen (name : String) (a : Temp) (i : Temp → Instruction) :
    Growing session (do let t ← fresh name; emit (.mov t a); emit (i t); return t) :=
  (growing_fresh name).bind fun _ => (growing_emit _).bind fun _ => (growing_emit _).bind fun _ =>
    .pure _

theorem Cover.Grows.ofValue (h : Growing session left) : (Cover.ofValue left).Grows :=
  ⟨h, h.map _, h.map _⟩

theorem growing_arithmetic (opcode : Opcode) (name : String) (hl : Growing session left)
    (hr : Growing session right) : Growing session (arithmetic opcode name left right) :=
  hl.bind fun a => hr.bind fun _ => growing_copyThen name a _

theorem growing_arithmeticImm (opcode : Opcode) (name : String) (c : Int64)
    (hl : Growing session left) : Growing session (arithmeticImm opcode name left c) :=
  hl.bind fun a => growing_copyThen name a _

theorem growing_additive (op : BinOp) (opcode : Opcode) (l r : Exp) (hl : Growing session left)
    (hr : Growing session right) : Growing session (additive op opcode l r left right) := by
  unfold additive
  split
  · exact growing_arithmeticImm _ _ _ hl
  · split
    · exact growing_arithmeticImm _ _ _ hr
    · exact growing_arithmetic _ _ hl hr
  · exact growing_arithmetic _ _ hl hr

theorem growing_operation (op : BinOp) (l r : Exp) (hl : Growing session left)
    (hr : Growing session right) : Growing session (operation op l r left right) := by
  unfold operation
  split
  · exact growing_additive _ _ l r hl hr
  · exact growing_additive _ _ l r hl hr
  · exact growing_additive _ _ l r hl hr
  · exact growing_additive _ _ l r hl hr
  · split
    · exact hl.bind fun _ => growing_set "mul" _
    · exact hr.bind fun _ => growing_set "mul" _
    · exact growing_arithmetic _ _ hl hr
  · exact hl.bind fun _ => hr.bind fun _ => (growing_emit _).bind fun _ =>
      (growing_emit _).bind fun _ => (growing_emit _).bind fun _ => growing_set "mod" _

theorem growing_displaced (op : BinOp) (l r : Exp) (hl : Growing session left)
    (hr : Growing session right) (hwhole : Growing session whole) :
    Growing session (displaced op l r left right whole) := by
  unfold displaced
  split
  · exact hl.map _
  · exact hr.map _
  · split
    · exact hwhole.map _
    · exact hl.map _
  · exact hwhole.map _

theorem growing_callThrough {function : SelectM Callee} {args : SelectM (List Temp)}
    (hf : Growing session function) (hargs : Growing session args) :
    Growing session (callThrough function args) := by
  refine hargs.bind fun ts => hf.bind fun f => ?_
  cases f with
  | direct | memory | register => exact growing_emit _

end Selection

open Selection

mutual

/-- **Covering an expression** continues the session, whatever it is needed for. -/
theorem Exp.grows_cover (e : Exp) : e.cover.Grows := by
  cases e with
  | const c => exact { Cover.Grows.ofValue (growing_set "const" _) with address := .pure _ }
  | name l => exact { Cover.Grows.ofValue (growing_set "name" _) with callee := .pure _ }
  | temp t => exact .ofValue (.pure t)
  | mem a =>
    have hvalue : Growing session (Exp.mem a).cover.value :=
      a.grows_cover.address.bind fun _ => growing_set "load" _
    exact { Cover.Grows.ofValue hvalue with callee := a.grows_cover.address.map _ }
  | binop op l r =>
    have hwhole := growing_operation op l r l.grows_cover.value r.grows_cover.value
    exact { Cover.Grows.ofValue hwhole with
      address := growing_displaced op l r l.grows_cover.value r.grows_cover.value hwhole }
  | not e => exact .ofValue (e.grows_cover.value.bind fun t => growing_copyThen "not" t _)
  | call f args =>
    exact .ofValue ((growing_callThrough f.grows_cover.callee (Exp.growing_selectAll args)).bind
      fun _ => growing_set "call" _)
  | eseq s e => exact .ofValue (.throw _)

theorem Exp.growing_selectAll (es : List Exp) : Growing session (Exp.selectAll es) := by
  cases es with
  | nil => exact .pure []
  | cons e es => exact e.grows_cover.value.bind fun _ => (Exp.growing_selectAll es).map _

end

namespace Stm

theorem growing_selectMove (dst src : Exp) : Growing session (selectMove dst src) := by
  have hvalue := src.grows_cover.value
  unfold selectMove
  split
  · exact (growing_callThrough (Exp.grows_cover _).callee (Exp.growing_selectAll _)).bind fun _ =>
      growing_emit _
  · exact (Exp.grows_cover _).address.bind fun _ => growing_emit _
  · exact growing_emit _
  · exact growing_emit _
  · exact hvalue.bind fun _ => growing_emit _
  · exact hvalue.bind fun _ => (Exp.grows_cover _).address.bind fun _ => growing_emit _
  · exact .throw _

theorem growing_selectBranch (rel : RelOp) (l r : Exp) (target : Label) :
    Growing session (selectBranch rel l r target) := by
  have hjump (opcode : Opcode) (i : Instruction) :
      Growing session (do emit i; emit (.jump opcode target)) :=
    (growing_emit _).bind fun _ => growing_emit _
  unfold selectBranch
  split
  · exact l.grows_cover.value.bind fun _ => hjump _ _
  · exact r.grows_cover.value.bind fun _ => hjump _ _
  · exact l.grows_cover.value.bind fun _ => r.grows_cover.value.bind fun _ => hjump _ _

/-- **Selecting a statement** continues the session. -/
theorem growing_select (stm : Stm) : Growing session stm.select := by
  unfold select
  split
  · exact growing_selectMove _ _
  · exact growing_callThrough (Exp.grows_cover _).callee (Exp.growing_selectAll _)
  · exact (Exp.grows_cover _).value.map _
  · exact growing_emit _
  · exact growing_selectBranch _ _ _ _
  · exact growing_emit _
  · exact .throw _

end Stm

namespace Selection

theorem growing_stms (body : List Stm) : Growing session (stms body) := by
  induction body with
  | nil => exact .pure ()
  | cons stm body ih => exact stm.growing_select.bind fun _ => ih

/-- A selection that is run continues the session, however it ends. -/
theorem growing_run {α : Type} {x : SelectM α} (hx : Growing session x) : Growing id (run x) :=
  fun s => ⟨(hx { session := s }).le, (hx { session := s }).labels, (hx { session := s }).config⟩

/-- **Selecting a method** continues the session. -/
theorem growing_ofMethod (body : List Stm) (entry exit : List Temp) :
    Growing id (ofMethod body entry exit) :=
  (growing_run ((growing_emit _).bind fun _ => (growing_stms body).bind fun _ =>
    growing_emit _)).map _

end Selection

/-! ## Allocation -/

/-- Live sets are found without drawing anything. -/
theorem Liveness.growing_analyze (code : List Instruction) : Growing id (analyze code) :=
  .bind (.liftExcept _) fun _ => .bind (.lift (.count _)) fun _ => .pure _

namespace Allocation

theorem growing_attempt (p : Progress) (registers : Nat) : Growing id (attempt p registers) :=
  (Liveness.growing_analyze _).bind fun _ => .bind (.lift (.count _)) fun _ => .pure _

theorem extending_finish (p : Progress) (r : Round) : Session.Extending (finish p r) := by
  intro s
  obtain ⟨s', hfinish, hdraws⟩ := finish_run p r s
  rw [hfinish]
  exact hdraws.continues

theorem extending_spill (p : Progress) (temps : List Temp) : Session.Extending (p.spill temps) :=
  fun _ => (Progress.spill_keeps rfl).2.continues

/-- **Allocation** continues the session, round by round. -/
theorem growing_iterate (registers bound : Nat) (p : Progress) :
    Growing id (iterate registers bound p) := by
  induction bound generalizing p with
  | zero =>
    exact (growing_attempt p registers).bind fun round => .map (.lift (extending_finish p round)) _
  | succ bound ih =>
    refine (growing_attempt p registers).bind fun round => ?_
    dsimp only
    split
    · exact .map (.lift (extending_finish p round)) _
    · exact .bind (.lift (extending_spill p _)) fun p => ih p

end Allocation

/-! ## Methods -/

namespace CompiledMethod

theorem growing_selectBody (body : List Stm) (boundary : Boundary) :
    Growing id (selectBody body boundary) := by
  unfold selectBody
  split
  · exact growing_ofMethod _ _ _
  · refine (growing_ofMethod _ _ _).bind fun code => ?_
    refine (Liveness.growing_analyze _).bind fun _ => ?_
    split
    · exact .pure _
    · exact .pure _

/-- **Compiling a method** continues the session. -/
theorem growing_compile (strict : Bool) (name : String) (body : Stm) (frame : Frame)
    (boundary : Boundary) : Growing id (compile strict name body frame boundary) := by
  refine body.growing_canonicalize.bind fun c => .bind (.liftExcept _) fun linear =>
    .bind (.lift (.count _)) fun _ => (Block.growing_reblock linear).bind fun out =>
      (growing_selectBody out boundary).bind fun code =>
        .bind (.bind .get fun _ => Allocation.growing_iterate _ _ _) fun _ => ?_
  have hend (m : CompiledMethod) : Growing id (do
      Session.count (·.addMethod name code.instructions.length)
      return m : CompileM CompiledMethod) :=
    .bind (.lift (.count _)) fun _ => .pure m
  dsimp only
  split
  · split
    · exact .throw _
    · exact hend _
  · exact hend _

theorem growing_checkConfig : Growing id checkConfig := by
  refine Growing.bind .get fun s => ?_
  split
  · exact .throw _
  · exact .pure ()

end CompiledMethod

namespace Frame

open Session

theorem extending_new (name : String) : Extending (Frame.new name) :=
  Extending.bind .get fun _ => (Extending.newTemp _).map _

/-- A formal is one temp more, or a word. -/
theorem extending_addFormal (f : Frame) (name : String) : Extending (f.addFormal name) := by
  unfold addFormal
  split
  · exact .map (.map (.newTemp name) _) _
  · exact .pure _

theorem extending_addFormals (names : List String) (f : Frame) :
    Extending (names.foldlM (fun f name => f.addFormal name) f) := by
  induction names generalizing f with
  | nil => exact .pure f
  | cons name names ih => exact (f.extending_addFormal name).bind fun f => ih f

end Frame

theorem ClassTable.extending_methodFrame (className : String) (m : Program.MethodDecl) :
    Session.Extending (methodFrame className m) :=
  (Frame.extending_new _).bind fun f => (Frame.extending_addFormals _ f).bind fun _ =>
    Frame.extending_addFormal _ _

theorem CompiledMethod.growing_ofText (strict : Bool) (m : Text.MethodText) :
    Growing id (ofText strict m) :=
  growing_checkConfig.bind fun _ => .bind (.lift (Frame.extending_new _)) fun _ =>
    growing_compile _ _ _ _ _

/-! ## Programs -/

/-- **Building a class table** continues the session. -/
theorem ClassTable.growing_build (program : Program) : Growing id (build program) := by
  refine .map (.mapM (fun c => ?_) _) _
  refine .bind (.liftExcept _) fun chain => .map (.lift ?_) _
  exact (Session.Extending.namedLabel _).bind fun _ => .map .get _

namespace Fragment

/-- Three labels for the places that a statement branches to. -/
theorem growing_threeLabels {α : Type} {f : Label → Label → Label → CompileM α}
    (hf : ∀ l₁ l₂ l₃, Growing id (f l₁ l₂ l₃)) :
    Growing id (do
      let l₁ ← Session.freshLabel
      let l₂ ← Session.freshLabel
      let l₃ ← Session.freshLabel
      f l₁ l₂ l₃) :=
  .bind (.lift .freshLabel) fun _ => .bind (.lift .freshLabel) fun _ =>
    .bind (.lift .freshLabel) fun _ => hf _ _ _

theorem growing_toExp (f : Fragment) : Growing id f.toExp := by
  cases f with
  | exp e => exact .pure e
  | stm s => exact .throw _
  | cond rel l r =>
    exact .bind (.lift (.newTemp _)) fun _ => growing_threeLabels fun _ _ _ => .pure _

theorem growing_toBranch (rel : RelOp) (target : Label) (f : Fragment) :
    Growing id (f.toBranch rel target) := by
  unfold toBranch
  split
  · exact .pure _
  · exact .throw _
  · split
    · exact .pure _
    · exact .pure _
    · exact .pure _
    · exact .bind (.lift .freshLabel) fun _ => .pure _
    · exact .throw _

end Fragment

namespace Program

variable {left right : CompileM Fragment}

theorem growing_lowerValue {x : CompileM Fragment} (hx : Growing id x) {α : Type}
    {f : Exp → CompileM α} (hf : ∀ e, Growing id (f e)) :
    Growing id (do let e ← (← x).toExp; f e) :=
  hx.bind fun fragment => fragment.growing_toExp.bind hf

theorem growing_lowerLogical (name : String) {first : Fragment → Label → Label → CompileM Stm}
    (hl : Growing id left) (hr : Growing id right)
    (hfirst : ∀ f l l', Growing id (first f l l')) :
    Growing id (lowerLogical name left right first) :=
  .bind (.lift (.newTemp _)) fun _ => Fragment.growing_threeLabels fun _ _ _ =>
    hl.bind fun _ => hr.bind fun _ => (hfirst _ _ _).bind fun _ =>
      (Fragment.growing_toBranch _ _ _).bind fun _ => .pure _

theorem growing_lowerBinary (op : Operator) (hl : Growing id left) (hr : Growing id right) :
    Growing id (lowerBinary op left right) := by
  cases op with
  | add | sub | mul | mod | lt =>
    exact growing_lowerValue hl fun _ => growing_lowerValue hr fun _ => .pure _
  | and | or => exact growing_lowerLogical _ hl hr fun f _ _ => f.growing_toBranch _ _

mutual

/-- **Lowering an expression** continues the session. -/
theorem Expr.growing_lower (s : Scope) (e : Expr) : Growing id (e.lower s) := by
  cases e with
  | int | bool => exact .pure _
  | ident | this => exact .map (.liftExcept _) _
  | binary op l r => exact growing_lowerBinary op (l.growing_lower s) (r.growing_lower s)
  | not e | length e => exact growing_lowerValue (e.growing_lower s) fun _ => .pure _
  | index array position =>
    exact growing_lowerValue (array.growing_lower s) fun _ =>
      growing_lowerValue (position.growing_lower s) fun _ => .pure _
  | call receiver className method args =>
    refine growing_lowerValue (receiver.growing_lower s) fun _ =>
      .bind (.lift (.newTemp _)) fun _ => .bind (.liftExcept _) fun _ => ?_
    split
    · exact .throw _
    · exact (Expr.growing_lowerArgs s args).map _
  | newArray size =>
    refine growing_lowerValue (size.growing_lower s) fun _ => .map (.lift ?_) _
    exact (Session.Extending.newTemp _).bind fun _ => (Session.Extending.newTemp _).bind fun _ =>
      (Session.Extending.namedLabel _).map _
  | newObject className =>
    refine .bind (.liftExcept _) fun c => .map (.lift ?_) _
    exact (Session.Extending.newTemp _).bind fun _ => (Session.Extending.namedLabel _).map _

theorem Expr.growing_lowerArgs (s : Scope) (es : List Expr) : Growing id (Expr.lowerArgs s es) := by
  cases es with
  | nil => exact .pure []
  | cons e es =>
    exact growing_lowerValue (e.growing_lower s) fun _ => (Expr.growing_lowerArgs s es).map _

end

mutual

/-- **Lowering a statement** continues the session. -/
theorem Stmt.growing_lower (s : Scope) (stmt : Stmt) : Growing id (stmt.lower s) := by
  cases stmt with
  | block body => exact (Stmt.growing_lowerAll s body).map _
  | ite condition whenTrue whenFalse =>
    exact Fragment.growing_threeLabels fun _ _ _ => (condition.growing_lower s).bind fun f =>
      (f.growing_toBranch _ _).bind fun _ => (whenFalse.growing_lower s).bind fun _ =>
        (whenTrue.growing_lower s).map _
  | «while» condition body =>
    exact Fragment.growing_threeLabels fun _ _ _ => (condition.growing_lower s).bind fun f =>
      (f.growing_toBranch _ _).bind fun _ => (body.growing_lower s).map _
  | print value =>
    exact growing_lowerValue (value.growing_lower s) fun _ => .map (.lift (.namedLabel _)) _
  | assign name value =>
    exact .bind (.liftExcept _) fun _ => growing_lowerValue (value.growing_lower s) fun _ => .pure _
  | arrayAssign name position value =>
    exact .bind (.liftExcept _) fun _ => growing_lowerValue (position.growing_lower s) fun _ =>
      growing_lowerValue (value.growing_lower s) fun _ => .pure _

theorem Stmt.growing_lowerAll (s : Scope) (body : List Stmt) :
    Growing id (Stmt.lowerAll s body) := by
  cases body with
  | nil => exact .pure []
  | cons stmt rest =>
    exact (stmt.growing_lower s).bind fun _ => (Stmt.growing_lowerAll s rest).map _

end

end Program

namespace MethodTree

open Program

theorem growing_ofMain (program : Program) (table : ClassTable) (arrays : ArrayLayout) :
    Growing id (ofMain program table arrays) :=
  .bind (.lift (Frame.extending_new _)) fun _ => (Stmt.growing_lowerAll _ _).map _

theorem growing_ofMethod (c : ClassDecl) (m : MethodDecl) (table : ClassTable)
    (arrays : ArrayLayout) : Growing id (ofMethod c m table arrays) :=
  .bind (.liftExcept _) fun _ => .bind (.lift (ClassTable.extending_methodFrame _ _)) fun _ =>
    (Stmt.growing_lowerAll _ _).bind fun _ =>
      growing_lowerValue (Expr.growing_lower _ _) fun _ => .pure _

theorem growing_ofProgram (program : Program) (table : ClassTable) :
    Growing id (ofProgram program table) :=
  .bind (.lift (.map .get _)) fun _ => (growing_ofMain _ _ _).bind fun _ =>
    .map (.mapM (fun _ => growing_ofMethod _ _ _ _) _) _

end MethodTree

/-- **Compiling a program** continues the session, however far it gets. -/
theorem CompiledMethod.growing_ofProgram (strict : Bool) (program : Program) :
    Growing id (ofProgram strict program) :=
  growing_checkConfig.bind fun _ => (ClassTable.growing_build program).bind fun _ =>
    (MethodTree.growing_ofProgram _ _).bind fun _ => .mapM (fun _ => growing_compile _ _ _ _ _) _

/-! ## Texts -/

namespace Text.Reader

theorem growing_fail {α : Type} (fault : SyntaxFault) : Growing session (fail fault : ReadM α) :=
  Growing.bind .get fun _ => .throw _

theorem growing_advance (change : Reader → Reader) (h : ∀ r, (change r).session = r.session) :
    Growing session (modify change : ReadM Unit) := by
  intro r
  show r.session.Continues (change r).session
  rw [h]

theorem growing_inSession {α : Type} {x : SessionM α} (hx : Session.Extending x) :
    Growing session (inSession x) := fun r => hx r.session

theorem growing_peek? : Growing session peek? := .map .get _

theorem growing_opening : Growing session opening := by
  refine Growing.bind .get fun r => ?_
  split
  · exact growing_advance _ fun _ => rfl
  · exact growing_fail _

theorem growing_closing : Growing session closing := by
  refine Growing.bind .get fun r => ?_
  split
  · exact growing_advance _ fun _ => rfl
  · exact growing_fail _

theorem growing_atom : Growing session atom := by
  refine Growing.bind .get fun r => ?_
  split
  · exact .bind (growing_advance _ fun _ => rfl) fun _ => .pure _
  · exact growing_fail _

theorem growing_integer : Growing session integer := by
  refine growing_atom.bind fun entry => ?_
  dsimp only
  split
  · exact .pure _
  · exact .throw _

theorem growing_label : Growing session label :=
  growing_atom.bind fun _ => growing_inSession (.namedLabel _)

theorem growing_temp (name : String) : Growing session (temp name) := by
  unfold temp
  split
  · exact .pure _
  · refine Growing.bind .get fun r => ?_
    split
    · exact .pure _
    · exact .bind (growing_inSession (.newTemp _)) fun _ =>
        .bind (growing_advance _ fun _ => rfl) fun _ => .pure _

theorem growing_relation : Growing session relation := by
  refine growing_atom.bind fun entry => ?_
  dsimp only
  split
  · exact .pure _
  · exact growing_fail _

theorem growing_operator : Growing session operator := by
  refine growing_atom.bind fun entry => ?_
  dsimp only
  split
  · exact .pure _
  · exact growing_fail _

theorem growing_stmKind : Growing session stmKind := by
  refine growing_atom.bind fun entry => ?_
  dsimp only
  split
  · exact .pure _
  · exact .throw _

theorem growing_expKind : Growing session expKind := by
  refine growing_atom.bind fun entry => ?_
  dsimp only
  split
  · exact .pure _
  · exact .throw _

/-- Trees are read by recursion on the fuel, statements and expressions at once. -/
theorem growing_trees (fuel : Nat) : Growing session (stm fuel) ∧ Growing session (stms fuel) ∧
    Growing session (exp fuel) ∧ Growing session (exps fuel) := by
  induction fuel with
  | zero => exact ⟨growing_fail _, .pure _, growing_fail _, .pure _⟩
  | succ fuel ih =>
    obtain ⟨hstm, hstms, hexp, hexps⟩ := ih
    have hclose {α : Type} (a : α) : Growing session (do closing; return a) :=
      growing_closing.bind fun _ => .pure a
    refine ⟨?_, ?_, ?_, ?_⟩
    · rw [stm]
      refine growing_opening.bind fun _ => growing_stmKind.bind fun kind => ?_
      cases kind with
      | seq => exact hstms.bind fun _ => hclose _
      | move => exact hexp.bind fun _ => hexp.bind fun _ => hclose _
      | exp => exact hexp.bind fun _ => hclose _
      | jump | label => exact growing_label.bind fun _ => hclose _
      | cjump =>
        exact growing_relation.bind fun _ => hexp.bind fun _ => hexp.bind fun _ =>
          growing_label.bind fun _ => hclose _
    · rw [stms]
      refine growing_peek?.bind fun next => ?_
      split
      · exact hstm.bind fun _ => hstms.map _
      · exact .pure _
    · rw [exp]
      refine growing_peek?.bind fun next => ?_
      split
      · exact growing_atom.map _
      · exact growing_integer.map _
      · refine growing_opening.bind fun _ => growing_expKind.bind fun kind => ?_
        cases kind with
        | const => exact growing_integer.bind fun _ => hclose _
        | name => exact growing_label.bind fun _ => hclose _
        | temp => exact growing_atom.bind fun _ => (growing_temp _).bind fun _ => hclose _
        | binop =>
          exact growing_operator.bind fun _ => hexp.bind fun _ => hexp.bind fun _ => hclose _
        | not | mem => exact hexp.bind fun _ => hclose _
        | call => exact hexp.bind fun _ => hexps.bind fun _ => hclose _
        | eseq => exact hstm.bind fun _ => hexp.bind fun _ => hclose _
    · rw [exps]
      refine growing_peek?.bind fun next => ?_
      split
      · exact .pure _
      · exact .pure _
      · exact hexp.bind fun _ => hexps.map _

theorem growing_method (fuel : Nat) : Growing session (method fuel) := by
  have hbody (name : String) : Growing session (do
      modify fun r => { r with temps := [] }
      let body ← stm fuel
      closing
      return { name, body, temps := (← get).temps } : ReadM MethodText) :=
    .bind (growing_advance _ fun _ => rfl) fun _ => (growing_trees fuel).1.bind fun _ =>
      growing_closing.bind fun _ => .map .get _
  refine growing_opening.bind fun _ => growing_atom.bind fun entry => ?_
  dsimp only
  split
  · exact Growing.bind (.throw _) fun _ => growing_atom.bind fun entry => hbody entry.1
  · exact growing_atom.bind fun entry => hbody entry.1

theorem growing_methods (fuel : Nat) : Growing session (methods fuel) := by
  induction fuel with
  | zero => exact .pure []
  | succ fuel ih =>
    refine Growing.bind .get fun r => ?_
    split
    · exact .pure []
    · exact (growing_method fuel).bind fun _ => ih.map _

theorem growing_overText {α : Type} {read : Nat → ReadM α}
    (hread : ∀ fuel, Growing session (read fuel)) (text : String) :
    Growing id (overText read text) := by
  intro s
  let r : Reader :=
    { rest := tokens text
      last := ((tokens text).getLast?.map Token.position).getD Position.start
      session := s }
  exact hread _ r

end Text.Reader

namespace Text

/-- **Reading methods** continues the session, also when the text has a fault. -/
theorem growing_readMethods (text : String) : Growing id (readMethods text) :=
  Reader.growing_overText Reader.growing_methods text

theorem growing_readStm (text : String) : Growing id (readStm text) := by
  refine Reader.growing_overText (fun fuel => ?_) text
  refine (Reader.growing_trees fuel).1.bind fun stm => Growing.bind .get fun r => ?_
  split
  · exact Growing.bind (.pure ()) fun _ => .map .get _
  · exact (Reader.growing_fail _).bind fun _ => .map .get _

end Text

end TreeBackend
