import TreeBackend.Proofs.Ownership
import TreeBackend.Proofs.StagedForms

/-!
# Computations that let sessions grow

Whatever a session is asked to do, and whether it succeeds or fails, temps and
labels are drawn and none is given back, and the configuration stays. A part of
a computation may fail after it has drawn something, so the statement is about
the state that is left in either case (`Growing`). Canonicalization is the first
stage that draws from the session.
-/

namespace TreeBackend

/-! ## Computations -/

/-- **The computation continues the session** in its state, whether it succeeds or
fails. -/
def Growing {σ α : Type} (session : σ → Session) (x : ExceptT Error (StateM σ) α) : Prop :=
  ∀ s : σ, (session s).Continues (session (x.run.run s).2)

/-- A computation that does not fail continues the session. -/
def Session.Extending {α : Type} (x : SessionM α) : Prop := ∀ s : Session, s.Continues (x.run s).2

namespace Growing

variable {σ α β : Type} {session : σ → Session}

/-- A run that succeeds continues the session. -/
theorem continues {x : ExceptT Error (StateM σ) α} (hx : Growing session x) {s s' : σ} {a : α}
    (h : Yields x s a s') : (session s).Continues (session s') := by
  have hgrows := hx s
  rwa [show x.run.run s = (.ok a, s') from h] at hgrows

protected theorem pure (a : α) : Growing session (pure a) := fun s => .refl (session s)

protected theorem throw (e : Error) : Growing session (throw e : ExceptT Error (StateM σ) α) :=
  fun s => .refl (session s)

/-- A computation that fails has continued the session up to there. -/
protected theorem bind {x : ExceptT Error (StateM σ) α} {f : α → ExceptT Error (StateM σ) β}
    (hx : Growing session x) (hf : ∀ a, Growing session (f a)) : Growing session (x >>= f) := by
  intro s
  have hfirst := hx s
  rw [ExceptT.run_bind, StateT.run_bind]
  cases hrun : x.run.run s with
  | mk result u =>
    rw [hrun] at hfirst
    cases result with
    | error e => exact hfirst
    | ok a => exact hfirst.trans (hf a u)

theorem map {x : ExceptT Error (StateM σ) α} (hx : Growing session x) (f : α → β) :
    Growing session (x >>= fun a => pure (f a)) :=
  hx.bind fun a => .pure (f a)

/-- What cannot fail is a computation as well. -/
theorem lift {x : SessionM α} (hx : Session.Extending x) : Growing id (liftM x : CompileM α) := hx

/-- An error is thrown without a look at the session. -/
theorem liftExcept (x : Except Error α) :
    Growing session (liftM x : ExceptT Error (StateM σ) α) := by
  cases x with
  | error e => exact .throw e
  | ok a => exact .pure a

protected theorem get : Growing session (get : ExceptT Error (StateM σ) σ) :=
  fun s => .refl (session s)

/-- The same for each of many. -/
theorem mapM {γ : Type} {f : γ → ExceptT Error (StateM σ) α} (hf : ∀ x, Growing session (f x))
    (xs : List γ) : Growing session (xs.mapM f) := by
  induction xs with
  | nil => exact .pure []
  | cons x xs ih =>
    rw [List.mapM_cons]
    exact (hf x).bind fun y => ih.map (y :: ·)

end Growing

namespace Session.Extending

variable {α β : Type}

theorem continues {x : SessionM α} (hx : Extending x) {a b : Session} {y : α}
    (h : x.run a = (y, b)) : a.Continues b := by
  have hgrows := hx a
  rwa [h] at hgrows

protected theorem pure (a : α) : Extending (pure a : SessionM α) := fun s => .refl s

protected theorem bind {x : SessionM α} {f : α → SessionM β} (hx : Extending x)
    (hf : ∀ a, Extending (f a)) : Extending (x >>= f) :=
  fun s => (hx s).trans (hf _ _)

theorem map {x : SessionM α} (hx : Extending x) (f : α → β) :
    Extending (x >>= fun a => pure (f a)) :=
  hx.bind fun a => .pure (f a)

protected theorem get : Extending (get : SessionM Session) := fun s => .refl s

/-- A temp is one temp more. -/
theorem newTemp (name : String) : Extending (newTemp name) :=
  fun _ => ⟨Nat.le_succ _, fun _ h => h, rfl⟩

theorem newHolder : Extending newHolder := fun _ => ⟨Nat.le_succ _, fun _ h => h, rfl⟩

theorem freshLabel : Extending freshLabel := continues_freshLabel

/-- A label with a name is one label more, or was known before. -/
theorem namedLabel (name : String) : Extending (namedLabel name) := by
  intro s
  rw [run_namedLabel]
  split
  · exact .refl s
  · refine ⟨Nat.le_refl _, fun l hl => ?_, rfl⟩
    rw [labels_withLabel]
    exact List.mem_append_left _ hl

/-- Counting changes no more than the statistics. -/
theorem count (add : Stats → Stats) : Extending (count add) :=
  fun _ => ⟨Nat.le_refl _, fun _ h => h, rfl⟩

end Session.Extending

/-! ## Canonical forms -/

namespace Staged

open Session

theorem growing_hold (p : Staged) : Extending p.hold := Extending.newHolder.map _

theorem growing_holdCall (p : Staged) : Extending p.holdCall := by
  unfold holdCall
  split
  · exact p.growing_hold
  · exact .pure p

theorem growing_protect (later : Bool) (p : Staged) : Extending (p.protect later) := by
  unfold Staged.protect
  split
  · exact p.growing_hold
  · exact .pure p

/-- Protecting operands draws holders. -/
theorem growing_protectAll (ps : List Staged) : Extending (protectAll ps) := by
  induction ps with
  | nil => exact .pure []
  | cons p ps ih => exact ih.bind fun ps => (p.growing_protect _).map _

theorem growing_combine (make : Exp → Exp → Exp) (l r : Staged) : Extending (l.combine make r) :=
  (l.growing_protect _).map _

theorem growing_combineCall (f : Staged) (args : List Staged) : Extending (f.combineCall args) :=
  (growing_protectAll args).bind fun _ => (f.growing_protect _).map _

end Staged

mutual

/-- **Staging an expression** continues the session. -/
theorem Exp.growing_stage (e : Exp) : Growing id e.stage := by
  cases e with
  | const | name | temp => exact .pure _
  | binop op l r =>
    exact l.growing_stage.bind fun p => .bind (.lift p.growing_holdCall) fun l =>
      r.growing_stage.bind fun p => .bind (.lift p.growing_holdCall) fun r =>
        .lift (l.growing_combine _ r)
  | not e | mem e =>
    exact e.growing_stage.bind fun p => .bind (.lift p.growing_holdCall) fun _ => .pure _
  | call f args =>
    exact f.growing_stage.bind fun p => .bind (.lift p.growing_holdCall) fun f =>
      (Exp.growing_stageAll args).bind fun ps => .lift (f.growing_combineCall ps)
  | eseq s e =>
    exact s.growing_canonicalize.bind fun _ => e.growing_stage.bind fun p =>
      .bind (.lift p.growing_holdCall) fun _ => .pure _

theorem Exp.growing_stageAll (es : List Exp) : Growing id (Exp.stageAll es) := by
  cases es with
  | nil => exact .pure []
  | cons e es =>
    exact e.growing_stage.bind fun p => .bind (.lift p.growing_holdCall) fun _ =>
      (Exp.growing_stageAll es).map _

/-- So does a move, if staging its source does. -/
theorem Exp.growing_moveInto (dst : Exp) {src : CompileM Staged} (hsrc : Growing id src) :
    Growing id (dst.moveInto src) := by
  cases dst with
  | temp t => exact hsrc.map _
  | mem address =>
    exact address.growing_stage.bind fun p => .bind (.lift p.growing_holdCall) fun address =>
      hsrc.bind fun p => .bind (.lift p.growing_holdCall) fun _ =>
        .bind (.lift (address.growing_protect _)) fun _ => .pure _
  | eseq s dst => exact s.growing_canonicalize.bind fun _ => (dst.growing_moveInto hsrc).map _
  | const | name | binop | not | call => exact .throw _

/-- **Canonicalization** continues the session. -/
theorem Stm.growing_canonicalize (s : Stm) : Growing id s.canonicalize := by
  cases s with
  | seq a b =>
    rw [Stm.canonicalize_seq]
    exact a.growing_canonicalize.bind fun _ => b.growing_canonicalize.map _
  | jump | label =>
    rw [Stm.canonicalize]
    exact .pure _
  | exp e =>
    rw [Stm.canonicalize_exp]
    exact e.growing_stage.map _
  | move dst src =>
    rw [Stm.canonicalize_move]
    exact dst.growing_moveInto src.growing_stage
  | cjump rel l r target =>
    rw [Stm.canonicalize_cjump]
    exact (l.growing_stage.bind fun p => .lift p.growing_holdCall).bind fun l =>
      (r.growing_stage.bind fun p => .lift p.growing_holdCall).bind fun _ =>
        .bind (.lift (l.growing_protect _)) fun _ => .pure _

end

section Canonical

variable {a b : Session} {e : Exp} {p q : Staged}

theorem Staged.le_of_holdCall (h : p.holdCall.run a = (q, b)) : a.tempCount ≤ b.tempCount :=
  (p.growing_holdCall.continues h).le

theorem Staged.le_of_protect {later : Bool} (h : (p.protect later).run a = (q, b)) :
    a.tempCount ≤ b.tempCount :=
  ((p.growing_protect later).continues h).le

theorem Staged.le_of_protectAll {ps qs : List Staged} (h : (protectAll ps).run a = (qs, b)) :
    a.tempCount ≤ b.tempCount :=
  ((growing_protectAll ps).continues h).le

theorem Exp.le_of_stage (h : Yields e.stage a p b) : a.tempCount ≤ b.tempCount :=
  (e.growing_stage.continues h).le

theorem Exp.le_of_stagePure (h : Yields e.stagePure a p b) : a.tempCount ≤ b.tempCount :=
  ((e.growing_stage.bind fun p => .lift p.growing_holdCall).continues h).le

theorem Exp.le_of_stageAll {es : List Exp} {ps : List Staged} (h : Yields (stageAll es) a ps b) :
    a.tempCount ≤ b.tempCount :=
  ((growing_stageAll es).continues h).le

/-- **Canonicalization** draws temps, and gives none back. -/
theorem Stm.le_of_canonicalize {stm c : Stm} (h : Yields stm.canonicalize a c b) :
    a.tempCount ≤ b.tempCount :=
  (stm.growing_canonicalize.continues h).le

end Canonical

end TreeBackend
