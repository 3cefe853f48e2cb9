import TreeBackend.Proofs.Ownership
import TreeBackend.Proofs.TreeSemantics
import TreeBackend.Tree.Canonical

/-!
# Trees that may be taken apart

What a tree can do is read off its **nodes** – all the expressions and
statements it is made of. `Exp.eval_keeps` says it once: running a tree keeps
whatever the calls, assignments and stores among its nodes keep. From this it
follows which temps and which memory a tree leaves alone.

Taking a tree apart moves the value of an operand past the effects of the
operands after it. A value is not held back if it **commutes**, that is, if it
is a chain of memory reads over a leaf; so such a chain must not be disturbed
by a later operand (`Exp.Undisturbed`). Trees in which no chain is disturbed,
no jump hides in an expression and all temps belong to the session are
`Disciplined`.
-/

namespace TreeBackend

open List

variable {stms : List Stm}

/-! ## Nodes -/

/-- A part of a tree. -/
inductive Node where
  | exp (e : Exp)
  | stm (s : Stm)

mutual

/-- The nodes of an expression, itself among them. -/
def Exp.nodes : Exp → List Node
  | .const n => [.exp (.const n)]
  | .name l => [.exp (.name l)]
  | .temp t => [.exp (.temp t)]
  | .binop op l r => .exp (.binop op l r) :: (l.nodes ++ r.nodes)
  | .not e => .exp (.not e) :: e.nodes
  | .mem address => .exp (.mem address) :: address.nodes
  | .call f args => .exp (.call f args) :: (f.nodes ++ Exp.nodesAll args)
  | .eseq s e => .exp (.eseq s e) :: (s.nodes ++ e.nodes)

/-- The nodes of expressions. -/
def Exp.nodesAll : List Exp → List Node
  | [] => []
  | e :: es => e.nodes ++ Exp.nodesAll es

/-- The nodes of a statement, itself among them. -/
def Stm.nodes : Stm → List Node
  | .move dst src => .stm (.move dst src) :: (dst.nodes ++ src.nodes)
  | .exp e => .stm (.exp e) :: e.nodes
  | .jump l => [.stm (.jump l)]
  | .cjump rel l r target => .stm (.cjump rel l r target) :: (l.nodes ++ r.nodes)
  | .label l => [.stm (.label l)]
  | .seq a b => .stm (.seq a b) :: (a.nodes ++ b.nodes)

end

theorem Exp.nodesAll_eq (es : List Exp) : Exp.nodesAll es = es.flatMap Exp.nodes := by
  induction es with
  | nil => rfl
  | cons e es ih => rw [Exp.nodesAll, ih, flatMap_cons]

/-- A node of which something is known may be left out. -/
theorem Node.forall_mem_cons_of {P : Node → Prop} {n : Node} {ns : List Node} (h : P n) :
    (∀ m ∈ n :: ns, P m) ↔ ∀ m ∈ ns, P m :=
  forall_mem_cons.trans (and_iff_right h)

/-- What holds of a node holds of its two parts as well. -/
theorem Node.forall_mem_parts {P : Node → Prop} {n : Node} {left right : List Node} :
    (∀ m ∈ n :: (left ++ right), P m) ↔ P n ∧ (∀ m ∈ left, P m) ∧ ∀ m ∈ right, P m :=
  forall_mem_cons.trans (and_congr_right' forall_mem_append)

namespace Exp

/-- The temp an expression denotes as a destination. -/
def assigned? : Exp → Option Temp
  | temp t => some t
  | eseq _ dst => dst.assigned?
  | _ => none

/-- The address of the word an expression denotes as a destination. -/
def stored? : Exp → Option Exp
  | mem address => some address
  | eseq _ dst => dst.stored?
  | _ => none

end Exp

namespace Node

/-- The temp the node reads or denotes, if it is one. -/
def temp? : Node → Option Temp
  | exp (.temp t) => some t
  | _ => none

/-- The statement that hides in the node, if the node hides one. -/
def hidden? : Node → Option Stm
  | exp (.eseq s _) => some s
  | _ => none

/-- Whether the node assigns a temp. -/
def assigns (t : Temp) : Node → Bool
  | stm (.move dst _) => dst.assigned? = some t
  | _ => false

/-- Whether the node may change the memory: a call, or a store. -/
def touchesMemory : Node → Bool
  | exp (.call ..) => true
  | stm (.move dst _) => dst.stored?.isSome
  | _ => false

/-- The operands of a node, in the order they are evaluated in. -/
def operands : Node → List Exp
  | exp (.binop _ l r) => [l, r]
  | exp (.call f args) => f :: args
  | stm (.move dst src) => dst.stored?.elim [] fun address => [address, src]
  | stm (.cjump _ l r _) => [l, r]
  | _ => []

/-- What the node does by itself keeps `P`. -/
def Keeps {V M : Type} (host : Host V M) (P : World V M → World V M → Prop) : Node → Prop
  | exp (.call ..) => ∀ w f args, P w (w.call host f args).2
  | stm (.move dst _) =>
    (∀ t, dst.assigned? = some t → ∀ w v, P w (w.set t v)) ∧
      (dst.stored?.isSome → ∀ w a v, P w (w.store host a v))
  | _ => True

end Node

section Frame

variable {V M : Type} {host : Host V M} {P : World V M → World V M → Prop}

mutual

/-- **Frames.** Evaluation keeps whatever each node keeps. -/
theorem Exp.eval_keeps [Std.Refl P] [Trans P P P] (e : Exp)
    (h : ∀ n ∈ e.nodes, n.Keeps host P) (w : World V M) : P w (e.eval host w).2 := by
  cases e with
  | const | name | temp => exact Std.Refl.refl w
  | binop op l r =>
    rw [Exp.nodes, Node.forall_mem_parts] at h
    exact Trans.trans (l.eval_keeps h.2.1 w) (r.eval_keeps h.2.2 _)
  | not e | mem e =>
    rw [Exp.nodes, forall_mem_cons] at h
    exact e.eval_keeps h.2 w
  | call f args =>
    rw [Exp.nodes, Node.forall_mem_parts] at h
    exact Trans.trans (Trans.trans (f.eval_keeps h.2.1 w) (Exp.evalAll_keeps args h.2.2 _))
      (h.1 _ _ _)
  | eseq s e =>
    rw [Exp.nodes, Node.forall_mem_parts] at h
    exact Trans.trans (s.exec_keeps h.2.1 w) (e.eval_keeps h.2.2 _)

theorem Exp.evalAll_keeps [Std.Refl P] [Trans P P P] (es : List Exp)
    (h : ∀ n ∈ Exp.nodesAll es, n.Keeps host P) (w : World V M) :
    P w (Exp.evalAll host es w).2 := by
  cases es with
  | nil => exact Std.Refl.refl w
  | cons e es =>
    rw [Exp.nodesAll, forall_mem_append] at h
    exact Trans.trans (e.eval_keeps h.1 w) (Exp.evalAll_keeps es h.2 _)

theorem Exp.assign_keeps [Std.Refl P] [Trans P P P] (dst : Exp)
    (h : ∀ n ∈ dst.nodes, n.Keeps host P) {src : World V M → V × World V M}
    (hsrc : ∀ w, P w (src w).2) (hset : ∀ t, dst.assigned? = some t → ∀ w v, P w (w.set t v))
    (hstore : dst.stored?.isSome → ∀ w a v, P w (w.store host a v)) (w : World V M) :
    P w (dst.assign host src w) := by
  cases dst with
  | temp t => exact Trans.trans (hsrc w) (hset t rfl _ _)
  | mem address =>
    rw [Exp.nodes, forall_mem_cons] at h
    exact Trans.trans (Trans.trans (address.eval_keeps h.2 w) (hsrc _)) (hstore rfl _ _ _)
  | eseq s dst =>
    rw [Exp.nodes, Node.forall_mem_parts] at h
    exact Trans.trans (s.exec_keeps h.2.1 w) (dst.assign_keeps h.2.2 hsrc hset hstore _)
  | const | name | binop | not | call => exact Std.Refl.refl w

theorem Stm.exec_keeps [Std.Refl P] [Trans P P P] (s : Stm)
    (h : ∀ n ∈ s.nodes, n.Keeps host P) (w : World V M) : P w (s.exec host w) := by
  cases s with
  | move dst src =>
    rw [Stm.nodes, Node.forall_mem_parts] at h
    exact dst.assign_keeps h.2.1 (src.eval_keeps h.2.2) h.1.1 h.1.2 w
  | exp e =>
    rw [Stm.nodes, forall_mem_cons] at h
    exact e.eval_keeps h.2 w
  | jump | label => exact Std.Refl.refl w
  | cjump rel l r target =>
    rw [Stm.nodes, Node.forall_mem_parts] at h
    exact Trans.trans (l.eval_keeps h.2.1 w) (r.eval_keeps h.2.2 _)
  | seq a b =>
    rw [Stm.nodes, Node.forall_mem_parts] at h
    exact Trans.trans (a.exec_keeps h.2.1 w) (b.exec_keeps h.2.2 _)

end

theorem Stm.execAll_keeps [Std.Refl P] [Trans P P P]
    (h : ∀ n ∈ stms.flatMap Stm.nodes, n.Keeps host P) (w : World V M) :
    P w (Stm.execAll host stms w) := by
  induction stms generalizing w with
  | nil => exact Std.Refl.refl w
  | cons s stms ih =>
    rw [flatMap_cons, forall_mem_append] at h
    exact Trans.trans (s.exec_keeps h.1 w) (ih h.2 _)

end Frame

section Untouched

variable {V M : Type} {host : Host V M} {t : Temp} {n : Node}

/-- Relates worlds that show the same to an observer. -/
private def SameView {α : Type} (view : World V M → α) (w w' : World V M) : Prop := view w' = view w

private instance {α : Type} (view : World V M → α) : Std.Refl (SameView view) := ⟨fun _ => rfl⟩

private instance {α : Type} (view : World V M → α) :
    Trans (SameView view) (SameView view) (SameView view) :=
  ⟨fun h h' => Eq.trans h' h⟩

private theorem Node.keeps_temp (h : n.assigns t = false) :
    n.Keeps host (SameView fun w => w.temps t) := by
  unfold Node.Keeps
  split
  · exact fun w f args => rfl
  · refine ⟨fun t' ht' w v => ?_, fun _ w a v => rfl⟩
    show Function.update w.temps t' v t = w.temps t
    rw [Function.update_of_ne]
    rintro rfl
    simp [Node.assigns, ht'] at h
  · trivial

private theorem Node.keeps_memory (h : n.touchesMemory = false) :
    n.Keeps host (SameView World.memory) := by
  unfold Node.Keeps
  split
  · simp [Node.touchesMemory] at h
  · refine ⟨fun t _ w v => rfl, fun hstored => ?_⟩
    rw [Node.touchesMemory, hstored] at h
    contradiction
  · trivial

/-- Statements that do not assign a temp leave it as it is. -/
theorem Stm.execAll_temps (h : ∀ n ∈ stms.flatMap Stm.nodes, n.assigns t = false) (w : World V M) :
    (Stm.execAll host stms w).temps t = w.temps t :=
  Stm.execAll_keeps (fun n hn => (Node.keeps_temp (h n hn) : n.Keeps host _)) w

/-- Statements without calls and stores leave the memory as it is. -/
theorem Stm.execAll_memory (h : ∀ n ∈ stms.flatMap Stm.nodes, n.touchesMemory = false)
    (w : World V M) : (Stm.execAll host stms w).memory = w.memory :=
  Stm.execAll_keeps (fun n hn => (Node.keeps_memory (h n hn) : n.Keeps host _)) w

/-- Relates worlds of which the second has made all calls of the first. -/
private def MoreCalls (w w' : World V M) : Prop := w.calls <+: w'.calls

private instance : Std.Refl (MoreCalls (V := V) (M := M)) := ⟨fun _ => prefix_refl _⟩

private instance : Trans (MoreCalls (V := V) (M := M)) MoreCalls MoreCalls :=
  ⟨fun h h' => List.IsPrefix.trans h h'⟩

private theorem Node.keeps_calls (n : Node) : n.Keeps host MoreCalls := by
  unfold Node.Keeps
  split
  · exact fun w f args => prefix_append _ _
  · exact ⟨fun t _ w v => prefix_refl _, fun _ w a v => prefix_refl _⟩
  · trivial

/-- Calls that were made stay made. -/
theorem Stm.turn_calls (s : Stm) (w : World V M) : w.calls <+: (s.turn host w).2.calls := by
  have hexec : w.calls <+: (s.exec host w).calls :=
    Stm.exec_keeps (P := MoreCalls) s (fun n _ => n.keeps_calls) w
  cases s with
  | move | exp | label | seq | jump | cjump => exact hexec

theorem Body.calls_of_steps {body : List Stm} {c c' : Body.State V M}
    (h : Relation.ReflTransGen (Body.Step host body) c c') : c.world.calls <+: c'.world.calls := by
  induction h with
  | refl => exact prefix_refl _
  | @tail c₁ c₂ _ hstep ih =>
    refine ih.trans ?_
    obtain ⟨control, w⟩ := c₁
    cases control with
    | away l => cases hstep
    | before index =>
      obtain ⟨stm, _, rfl⟩ := Option.map_eq_some_iff.mp hstep
      exact stm.turn_calls w

end Untouched

/-! ## Chains -/

namespace Exp

/-- Whether the expression assigns a temp, anywhere inside it. -/
def assigns (t : Temp) (e : Exp) : Bool := e.nodes.any (Node.assigns t)

/-- Whether the expression contains a call or a store. -/
def touchesMemory (e : Exp) : Bool := e.nodes.any Node.touchesMemory

/-- The temp under a chain of memory reads. Statements that hide on the way to
it are passed over. -/
def base? : Exp → Option Temp
  | temp t => some t
  | mem address => address.base?
  | eseq _ e => e.base?
  | _ => none

/-- Whether the expression is a **chain**: memory reads, any number of them,
over a leaf or a call. -/
def isChain : Exp → Bool
  | const _ | name _ | temp _ | call .. => true
  | mem address => address.isChain
  | eseq _ e => e.isChain
  | binop .. | not _ => false

/-- Whether the expression is a chain with at least one memory read. -/
def isReadChain : Exp → Bool
  | mem address => address.isChain
  | eseq _ e => e.isReadChain
  | _ => false

/-- The chain `a`, if it is one, is **undisturbed** by `b`: what it reads is
not written inside `b`. -/
structure Undisturbed (a b : Exp) : Prop where
  base : ∀ t ∈ a.base?, b.assigns t = false
  memory : a.isReadChain = true → b.touchesMemory = false

instance (a b : Exp) : Decidable (Undisturbed a b) :=
  decidable_of_iff ((∀ t ∈ a.base?, b.assigns t = false) ∧
    (a.isReadChain = true → b.touchesMemory = false))
    ⟨fun h => ⟨h.1, h.2⟩, fun h => ⟨h.base, h.memory⟩⟩

end Exp

/-- Whether a statement only moves and evaluates: it neither jumps nor places
a label. What hides in its expressions does not count. -/
def Stm.isStraight : Stm → Bool
  | .move .. | .exp _ => true
  | .seq a b => a.isStraight && b.isStraight
  | .jump _ | .cjump .. | .label _ => false

/-- What a node must satisfy for a tree to be taken apart. -/
structure Node.Disciplined (s : Session) (n : Node) : Prop where
  owned : ∀ t ∈ n.temp?, s.Owns t
  straight : ∀ stm ∈ n.hidden?, stm.isStraight = true
  orderly : n.operands.Pairwise Exp.Undisturbed

instance (s : Session) : DecidablePred (Node.Disciplined s) := fun n =>
  decidable_of_iff ((∀ t ∈ n.temp?, s.Owns t) ∧ (∀ stm ∈ n.hidden?, stm.isStraight = true) ∧
    n.operands.Pairwise Exp.Undisturbed)
    ⟨fun h => ⟨h.1, h.2.1, h.2.2⟩, fun h => ⟨h.owned, h.straight, h.orderly⟩⟩

/-- A statement is **disciplined**: its temps belong to the session, no jump
and no label hides in an expression, and no operand disturbs a chain before
it. -/
def Stm.Disciplined (s : Session) (stm : Stm) : Prop := ∀ n ∈ stm.nodes, n.Disciplined s

instance (s : Session) : DecidablePred (Stm.Disciplined s) := fun stm =>
  inferInstanceAs (Decidable (∀ n ∈ stm.nodes, n.Disciplined s))

end TreeBackend
