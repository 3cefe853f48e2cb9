import TreeBackend.Proofs.SessionGrowth

/-!
# Which words of the frame code touches

Canonicalization leaves the address of a word as it is. Selection takes addresses
apart: it turns them into memory operands, or else adds them up in a temp of its own.
So the operands of its instructions touch the words that the tree has addressed, and
no others, if the tree uses the frame pointer for nothing else
(`Selection.touchesOnly_of_ofMethod`).
-/

namespace TreeBackend

open List Selection Staged

variable {d : Int64} {e : Exp} {q : Staged} {b : Session}

/-! ## Words that instructions touch -/

/-- The offset from the frame pointer at which an operand accesses memory, in an
instruction that reads `uses`. -/
def Operand.frameOffset? (uses : List Temp) : Operand → Option Int64
  | .mem (some base) disp => if uses[base]? = some .framePointer then some disp else none
  | _ => none

namespace Instruction

/-- The offsets from the frame pointer at which the instruction accesses memory. -/
def frameOffsets (i : Instruction) : List Int64 :=
  i.operands.filterMap (Operand.frameOffset? i.uses)

/-- The instruction touches no words of the frame but those given. -/
def TouchesOnly (words : Set Int64) (i : Instruction) : Prop := ∀ d ∈ i.frameOffsets, d ∈ words

end Instruction

/-- What a tree may do that uses the frame pointer for nothing but the address of the
words, and that moves values to temps and to memory only. -/
def Reach.frame (words : Set Int64) (assigned : Set Temp) (targets : Set Label) : Reach :=
  ⟨{t | t ≠ .framePointer}, words, assigned, targets, True⟩

/-- The address is not based on the frame pointer, or else it is that of a word. -/
def Address.Touches (words : Set Int64) (a : Address) : Prop :=
  a.base? = some .framePointer → a.disp ∈ words

namespace Instruction

variable {words : Set Int64} {i : Instruction} {a : Address}

/-- An instruction without accesses to the frame touches nothing. -/
theorem TouchesOnly.of_nil (h : i.frameOffsets = []) : i.TouchesOnly words := by
  intro d hd
  rw [h] at hd
  cases hd

/-- A memory operand accesses the frame through its base only. -/
theorem frameOffset?_memOperand {uses : List Temp} {index : Nat}
    (huses : ∀ t ∈ a.base?, uses[index]? = some t)
    (h : (memOperand a index).frameOffset? uses = some d) :
    a.base? = some .framePointer ∧ a.disp = d := by
  obtain ⟨base?, disp⟩ := a
  cases base? with
  | none => cases h
  | some t =>
    rw [memOperand, Option.map_some, Operand.frameOffset?, huses t rfl] at h
    split at h
    · next ht => exact ⟨ht, Option.some.inj h⟩
    · cases h

/-- An instruction with one memory operand touches the word that it addresses. -/
theorem TouchesOnly.of_address (ha : a.Touches words) (index : Nat)
    (hoperands : ∀ o ∈ i.operands, o = memOperand a index ∨ o.frameOffset? i.uses = none)
    (huses : ∀ t ∈ a.base?, i.uses[index]? = some t) : i.TouchesOnly words := by
  intro d hd
  obtain ⟨o, ho, hoffset⟩ := mem_filterMap.mp hd
  obtain rfl | hnone := hoperands o ho
  · obtain ⟨hbase, rfl⟩ := frameOffset?_memOperand huses hoffset
    exact ha hbase
  · cases hnone.symm.trans hoffset

theorem touchesOnly_load (ha : a.Touches words) (t : Temp) : (load t a).TouchesOnly words := by
  refine .of_address ha 0 ?_ fun t ht => ?_
  · simp [load, Operand.frameOffset?]
  · rw [load, Option.mem_def.mp ht]
    rfl

theorem touchesOnly_store (ha : a.Touches words) (t : Temp) : (store a t).TouchesOnly words := by
  refine .of_address ha 1 ?_ fun t ht => ?_
  · simp [store, Operand.frameOffset?]
  · rw [store, Option.mem_def.mp ht]
    rfl

theorem touchesOnly_callMemory (ha : a.Touches words) (args clobbers : List Temp) :
    (callMemory a args clobbers).TouchesOnly words := by
  refine .of_address ha 0 ?_ fun t ht => ?_
  · simp [callMemory]
  · rw [callMemory, Option.mem_def.mp ht]
    rfl

end Instruction

/-! ## Selections -/

/-- **The selection touches no words but those given**: it emits instructions that do
not, and its result has the property `post`. -/
def Touching {α : Type} (words : Set Int64) (x : SelectM α) (post : α → Prop) : Prop :=
  ∀ ⦃s : Selection⦄ ⦃a : α⦄ ⦃s' : Selection⦄, Yields x s a s' →
    (∀ i ∈ s.code.instructions, i.TouchesOnly words) →
    (∀ i ∈ s'.code.instructions, i.TouchesOnly words) ∧ post a

namespace Touching

variable {α β : Type} {words : Set Int64} {post : α → Prop} {post' : β → Prop}

/-- What emits nothing touches nothing. -/
protected theorem pure {a : α} (h : post a) : Touching words (pure a) post := by
  intro s b s' hyields hcode
  obtain ⟨rfl, rfl⟩ := yields_pure.mp hyields
  exact ⟨hcode, h⟩

protected theorem throw (e : Error) : Touching words (throw e) post :=
  fun _ _ _ hyields => absurd hyields not_yields_throw

/-- Code after code touches what both touch. -/
protected theorem bind {x : SelectM α} {f : α → SelectM β} (hx : Touching words x post)
    (hf : ∀ a, post a → Touching words (f a) post') : Touching words (x >>= f) post' := by
  intro s b s' hyields hcode
  obtain ⟨a, u, hxa, hfa⟩ := yields_bind.mp hyields
  obtain ⟨hcode', ha⟩ := hx hxa hcode
  exact hf a ha hfa hcode'

theorem imp {post' : α → Prop} {x : SelectM α} (hx : Touching words x post)
    (h : ∀ a, post a → post' a) : Touching words x post' :=
  fun _ a _ hyields hcode => (hx hyields hcode).imp_right (h a)

/-- One instruction is as good as its accesses. -/
theorem emit {i : Instruction} (h : i.TouchesOnly words) :
    Touching words (Selection.emit i) fun _ => True := by
  intro s _ s' hyields hcode
  obtain ⟨-, rfl⟩ := Prod.mk.inj hyields
  exact ⟨forall_mem_append.mpr ⟨hcode, forall_mem_singleton.mpr h⟩, trivial⟩

/-- What is drawn is not the frame pointer. -/
theorem fresh (name : String) :
    Touching words (Selection.fresh name) fun t => t ≠ .framePointer := by
  intro s t s' hyields hcode
  obtain ⟨ht, rfl⟩ := Prod.mk.inj hyields
  obtain rfl := Except.ok.inj ht
  exact ⟨hcode, by simp [Temp.framePointer]⟩

end Touching

section Covers

variable {words : Set Int64}

/-- The cover touches no words but those given, in each of its roles. -/
structure Selection.Cover.Touches (words : Set Int64) (c : Cover) : Prop where
  value : Touching words c.value fun t => t ≠ .framePointer
  address : Touching words c.address fun a => a.Touches words
  callee : Touching words c.callee fun f => ∀ args, (f.instruction args).TouchesOnly words

/-- Without a cover, a value is an address by itself. -/
theorem Selection.Cover.Touches.ofValue {value : SelectM Temp}
    (h : Touching words value fun t => t ≠ .framePointer) :
    (Cover.ofValue value).Touches words where
  value := h
  address := h.bind fun _ ht => .pure fun hbase => absurd (Option.some.inj hbase) ht
  callee := h.bind fun _ _ => .pure fun _ => .of_nil rfl

namespace Touching

variable {left right : SelectM Temp}

/-- A copy in a new temp is changed by a second instruction. -/
theorem copyThen (name : String) (a : Temp) {i : Temp → Instruction}
    (hi : ∀ t, (i t).frameOffsets = []) :
    Touching words (do
      let t ← Selection.fresh name
      Selection.emit (.mov t a)
      Selection.emit (i t)
      return t) fun t => t ≠ .framePointer :=
  (fresh name).bind fun t ht => (emit (.of_nil rfl)).bind fun _ _ =>
    (emit (.of_nil (hi t))).bind fun _ _ => .pure ht

theorem arithmeticImm (opcode : Opcode) (name : String) (c : Int64)
    (h : Touching words left fun _ => True) :
    Touching words (Selection.arithmeticImm opcode name left c) fun t => t ≠ .framePointer :=
  h.bind fun a _ => copyThen name a fun _ => rfl

theorem arithmetic (opcode : Opcode) (name : String) (hl : Touching words left fun _ => True)
    (hr : Touching words right fun _ => True) :
    Touching words (Selection.arithmetic opcode name left right) fun t => t ≠ .framePointer :=
  hl.bind fun a _ => hr.bind fun _ _ => copyThen name a fun _ => rfl

theorem product (c : Int64) (h : Touching words left fun _ => True) :
    Touching words (Selection.product left c) fun t => t ≠ .framePointer :=
  h.bind fun _ _ => (fresh "mul").bind fun _ ht => (emit (.of_nil rfl)).bind fun _ _ => .pure ht

theorem remainder (hl : Touching words left fun _ => True)
    (hr : Touching words right fun _ => True) :
    Touching words (Selection.remainder left right) fun t => t ≠ .framePointer :=
  hl.bind fun _ _ => hr.bind fun _ _ => (emit (.of_nil rfl)).bind fun _ _ =>
    (emit (.of_nil rfl)).bind fun _ _ => (emit (.of_nil rfl)).bind fun _ _ =>
      (fresh "mod").bind fun _ ht => (emit (.of_nil rfl)).bind fun _ _ => .pure ht

theorem additive (op : BinOp) (opcode : Opcode) (l r : Exp)
    (hl : Touching words left fun _ => True) (hr : Touching words right fun _ => True) :
    Touching words (Selection.additive op opcode l r left right) fun t => t ≠ .framePointer := by
  unfold Selection.additive
  split
  · exact arithmeticImm _ _ _ hl
  · split
    · exact arithmeticImm _ _ _ hr
    · exact arithmetic _ _ hl hr
  · exact arithmetic _ _ hl hr

/-- **Every operator** computes its value in a new temp. -/
theorem operation (op : BinOp) (l r : Exp) (hl : Touching words left fun _ => True)
    (hr : Touching words right fun _ => True) :
    Touching words (Selection.operation op l r left right) fun t => t ≠ .framePointer := by
  unfold Selection.operation
  split
  · exact additive _ _ l r hl hr
  · exact additive _ _ l r hl hr
  · exact additive _ _ l r hl hr
  · exact additive _ _ l r hl hr
  · split
    · exact product _ hl
    · exact product _ hr
    · exact arithmetic _ _ hl hr
  · exact remainder hl hr

/-- An address with a base that is not the frame pointer. -/
theorem displace (c : Int64) (h : Touching words left fun t => t ≠ .framePointer) :
    Touching words (do return ⟨some (← left), c⟩) fun a : Address => a.Touches words :=
  h.bind fun _ ht => .pure fun hbase => absurd (Option.some.inj hbase) ht

/-- A sum with a constant is reached from its other operand. -/
theorem displaced (op : BinOp) (l r : Exp) {whole : SelectM Temp}
    (hl : Touching words left fun t => t ≠ .framePointer)
    (hr : Touching words right fun t => t ≠ .framePointer)
    (hwhole : Touching words whole fun t => t ≠ .framePointer) :
    Touching words (Selection.displaced op l r left right whole) fun a => a.Touches words := by
  unfold Selection.displaced
  split
  · exact displace _ hl
  · exact displace _ hr
  · split
    · exact displace 0 hwhole
    · exact displace _ hl
  · exact displace 0 hwhole

/-- A call accesses memory where its function says. -/
theorem callThrough {function : SelectM Callee} {args : SelectM (List Temp)}
    (hf : Touching words function fun f => ∀ args, (f.instruction args).TouchesOnly words)
    (hargs : Touching words args fun _ => True) :
    Touching words (Selection.callThrough function args) fun _ => True := by
  refine hargs.bind fun ts _ => hf.bind fun f hf => ?_
  cases f with
  | direct | memory | register => exact emit (hf ts)

end Touching

theorem Exp.cover_const (c : Int64) : (Exp.const c).cover.Touches words := by
  have hvalue : Touching words (Exp.const c).cover.value fun t => t ≠ .framePointer :=
    (Touching.fresh "const").bind fun _ ht => (Touching.emit (.of_nil rfl)).bind fun _ _ => .pure ht
  have haddress : Touching words (Exp.const c).cover.address fun a => a.Touches words :=
    .pure fun hbase => by cases hbase
  exact { Cover.Touches.ofValue hvalue with address := haddress }

/-- The address of a word is a memory operand, or a sum in a new temp. -/
theorem Exp.cover_frameWord (hd : d ∈ words) : (frameWord d).cover.Touches words := by
  have hvalue : Touching words (frameWord d).cover.value fun t => t ≠ .framePointer :=
    .operation .plus (.temp .framePointer) (.const d) (.pure trivial)
      ((Exp.cover_const d).value.imp fun _ _ => trivial)
  have haddress : Touching words (frameWord d).cover.address fun a => a.Touches words :=
    .pure fun _ => hd
  exact { Cover.Touches.ofValue hvalue with address := haddress }

mutual

/-- **An expression touches the words that it addresses**, in all three roles. -/
theorem Exp.cover_touches (e : Exp) (he : e.Within (.frame words .univ .univ)) :
    e.cover.Touches words := by
  cases e with
  | const c => exact Exp.cover_const c
  | name l =>
    have hvalue : Touching words (Exp.name l).cover.value fun t => t ≠ .framePointer :=
      (Touching.fresh "name").bind fun _ ht => (Touching.emit (.of_nil rfl)).bind fun _ _ =>
        .pure ht
    have hcallee : Touching words (Exp.name l).cover.callee
        fun f => ∀ args, (f.instruction args).TouchesOnly words :=
      .pure fun _ => .of_nil rfl
    exact { Cover.Touches.ofValue hvalue with callee := hcallee }
  | temp t => exact .ofValue (.pure he)
  | binop op l r =>
    obtain ⟨d, hd, heq⟩ | ⟨hl, hr⟩ := he
    · -- the one use of the frame pointer that is allowed for
      rw [heq]
      exact Exp.cover_frameWord hd
    · have hleft := (l.cover_touches hl).value
      have hright := (r.cover_touches hr).value
      have hwhole : Touching words (Exp.binop op l r).cover.value fun t => t ≠ .framePointer :=
        .operation op l r (hleft.imp fun _ _ => trivial) (hright.imp fun _ _ => trivial)
      exact { Cover.Touches.ofValue hwhole with address := .displaced op l r hleft hright hwhole }
  | not e =>
    exact .ofValue ((e.cover_touches he).value.bind fun t _ => .copyThen "not" t fun _ => rfl)
  | mem a =>
    have hinner := (a.cover_touches he).address
    have hvalue : Touching words (Exp.mem a).cover.value fun t => t ≠ .framePointer :=
      hinner.bind fun _ ha => (Touching.fresh "load").bind fun t ht =>
        (Touching.emit (Instruction.touchesOnly_load ha t)).bind fun _ _ => .pure ht
    have hcallee : Touching words (Exp.mem a).cover.callee
        fun f => ∀ args, (f.instruction args).TouchesOnly words :=
      hinner.bind fun _ ha => .pure fun args => Instruction.touchesOnly_callMemory ha args _
    exact { Cover.Touches.ofValue hvalue with callee := hcallee }
  | call f args =>
    refine .ofValue ((Touching.callThrough (f.cover_touches he.1).callee
      (Exp.selectAll_touches args he.2)).bind fun _ _ => ?_)
    exact (Touching.fresh "call").bind fun _ ht => (Touching.emit (.of_nil rfl)).bind fun _ _ =>
      .pure ht
  | eseq s e => exact .ofValue (.throw _)

/-- Arguments touch what each of them touches. -/
theorem Exp.selectAll_touches (es : List Exp) (hes : Exp.AllWithin (.frame words .univ .univ) es) :
    Touching words (Exp.selectAll es) fun _ => True := by
  cases es with
  | nil => exact .pure trivial
  | cons e es =>
    exact (e.cover_touches hes.1).value.bind fun _ _ =>
      (Exp.selectAll_touches es hes.2).bind fun _ _ => .pure trivial

end

namespace Stm

/-- A move touches the word that it is into, and what its parts touch. -/
theorem selectMove_touches {dst src : Exp} (hdst : dst.Within (.frame words .univ .univ))
    (hsrc : src.Within (.frame words .univ .univ)) :
    Touching words (selectMove dst src) fun _ => True := by
  have hvalue := (src.cover_touches hsrc).value
  unfold selectMove
  split
  · next f args =>
    exact (Touching.callThrough (f.cover_touches hsrc.1).callee
      (Exp.selectAll_touches args hsrc.2)).bind fun _ _ => .emit (.of_nil rfl)
  · next d a =>
    exact (a.cover_touches hsrc).address.bind fun _ ha => .emit (Instruction.touchesOnly_load ha d)
  · exact .emit (.of_nil rfl)
  · exact .emit (.of_nil rfl)
  · exact hvalue.bind fun _ _ => .emit (.of_nil rfl)
  · next address =>
    exact hvalue.bind fun t _ => (address.cover_touches hdst).address.bind fun _ ha =>
      .emit (Instruction.touchesOnly_store ha t)
  · exact .throw _

/-- A branch touches what its operands touch. -/
theorem selectBranch_touches (rel : RelOp) {l r : Exp} (hl : l.Within (.frame words .univ .univ))
    (hr : r.Within (.frame words .univ .univ)) (target : Label) :
    Touching words (selectBranch rel l r target) fun _ => True := by
  have hleft := (l.cover_touches hl).value
  have hright := (r.cover_touches hr).value
  unfold selectBranch
  split
  · exact hleft.bind fun _ _ => (Touching.emit (.of_nil rfl)).bind fun _ _ => .emit (.of_nil rfl)
  · exact hright.bind fun _ _ => (Touching.emit (.of_nil rfl)).bind fun _ _ => .emit (.of_nil rfl)
  · exact hleft.bind fun _ _ => hright.bind fun _ _ =>
      (Touching.emit (.of_nil rfl)).bind fun _ _ => .emit (.of_nil rfl)

/-- **A statement touches the words that it addresses.** -/
theorem select_touches {stm : Stm} (h : stm.Within (.frame words .univ .univ)) :
    Touching words stm.select fun _ => True := by
  unfold select
  split
  · exact selectMove_touches h.2.1 h.2.2
  · next f args =>
    exact Touching.callThrough (f.cover_touches h.1).callee (Exp.selectAll_touches args h.2)
  · next e _ => exact (e.cover_touches h).value.bind fun _ _ => .pure trivial
  · exact .emit (.of_nil rfl)
  · exact selectBranch_touches _ h.2.1 h.2.2 _
  · exact .emit (.of_nil rfl)
  · exact .throw _

end Stm

namespace Selection

/-- A body touches what its statements touch. -/
theorem stms_touches {body : List Stm} (h : ∀ stm ∈ body, stm.Within (.frame words .univ .univ)) :
    Touching words (stms body) fun _ => True := by
  induction body with
  | nil => exact .pure trivial
  | cons stm body ih =>
    rw [forall_mem_cons] at h
    exact (Stm.select_touches h.1).bind fun _ _ => ih h.2

/-- What a selection that was run has emitted. -/
theorem touchesOnly_of_run {α : Type} {x : SelectM α} {post : α → Prop}
    (hx : Touching words x post) {s s' : Session} {r : α × Code} (h : Yields (run x) s r s') :
    ∀ i ∈ r.2.instructions, i.TouchesOnly words := by
  have hrun : (x.run.run { session := s }).1.map (·, (x.run.run { session := s }).2.code)
      = .ok r := (Prod.mk.inj h).1
  cases hxs : x.run.run { session := s } with
  | mk result t =>
    rw [hxs] at hrun
    cases result with
    | error e => cases hrun
    | ok a =>
      obtain rfl := Except.ok.inj hrun
      exact (hx hxs nofun).1

/-- **The code of a method touches the words that its body addresses.** -/
theorem touchesOnly_of_ofMethod {body : List Stm}
    (h : ∀ stm ∈ body, stm.Within (.frame words .univ .univ)) {entry exit : List Temp}
    {s s' : Session} {code : Code}
    (hcode : Yields (ofMethod body entry exit) s code s') :
    ∀ i ∈ code.instructions, i.TouchesOnly words := by
  simp only [ofMethod, yields_bind, yields_pure] at hcode
  obtain ⟨⟨_, code⟩, u, hrun, rfl, rfl⟩ := hcode
  exact touchesOnly_of_run ((Touching.emit (.of_nil rfl)).bind fun _ _ =>
    (stms_touches h).bind fun _ _ => Touching.emit (.of_nil rfl)) hrun

end Selection

end Covers

end TreeBackend
