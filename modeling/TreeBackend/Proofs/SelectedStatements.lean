import TreeBackend.Proofs.Covers

/-!
# Code for statements

The code selected for a plain statement is straight code and perhaps a jump at
its end. `Stm.SelectedAs` says what it does, in terms of the turn that the
statement takes: the straight code brings the world of the processor to where
the statement brings it, and the jump is taken if and only if control leaves
for its label.

A call has its arguments evaluated before its function. Both are pure, so the
order makes no difference, and the call gets the values it would get if they
were evaluated as they stand.
-/

namespace TreeBackend

open List Machine Selection World

variable {n : Nat} {f e src : Exp} {args : List Exp} {stm : Stm}

/-! ## Arguments and calls -/

/-- The code computes the expressions, each into its temp. -/
structure ComputesAll (n m : Nat) (is : List Instruction) (es : List Exp) (ts : List Temp) :
    Prop where
  le : n ≤ m
  plain : ∀ i ∈ is, i.label? = none
  settled : ∀ t ∈ ts, t.Settled m
  runs : ∀ {M : Type} (env : Surroundings M) (regs : Temp → BitVec 64) (p : Processor M),
    ∃ regs', Does env is regs p regs' p ∧ Keeps n regs regs' ∧
      ts.map regs' = es.map fun e => (e.eval env.host (p.world regs)).1

/-- **Arguments** are evaluated in order, and all of them are there in the end. -/
theorem Exp.selectAll_computes {es : List Exp} (h : ∀ e ∈ es, e.Ready n) :
    ∀ k, n ≤ k → ∃ ts is m, Emits (Exp.selectAll es) k ts is m ∧ ComputesAll k m is es ts := by
  induction es with
  | nil =>
    intro k hk
    exact ⟨[], [], k, .pure [] k, Nat.le_refl k, by simp, by simp,
      fun env regs p => ⟨regs, .nil regs p, .refl k regs, rfl⟩⟩
  | cons e es ih =>
    intro k hk
    rw [forall_mem_cons] at h
    obtain ⟨t, is, m, hemits, hcomputes⟩ := (Exp.cover_covers h.1).value k hk
    obtain ⟨ts, js, m', hemits', hcomputes'⟩ := ih h.2 m (Nat.le_trans hk hcomputes.le)
    refine ⟨t :: ts, is ++ js, m', ?_, Nat.le_trans hcomputes.le hcomputes'.le,
      forall_mem_append.mpr ⟨hcomputes.plain, hcomputes'.plain⟩, ?_, fun env regs p => ?_⟩
    · rw [selectAll]
      exact hemits.bind (hemits'.map _)
    · rw [forall_mem_cons]
      exact ⟨(hcomputes.settled t mem_cons_self).mono hcomputes'.le, hcomputes'.settled⟩
    · obtain ⟨regs₁, hdoes₁, hkeeps₁, hread₁⟩ := hcomputes.runs env regs p
      obtain ⟨regs₂, hdoes₂, hkeeps₂, hread₂⟩ := hcomputes'.runs env regs₁ p
      refine ⟨regs₂, hdoes₁.append hdoes₂, hkeeps₁.trans hkeeps₂ hcomputes.le, ?_⟩
      rw [map_cons, map_cons, hread₂, hkeeps₂ t (hcomputes.settled t mem_cons_self), ← hread₁]
      refine congrArg (_ :: ·) (map_congr_left fun e' he' => ?_)
      exact ((h.2 e' he').mono hk).eval_of_keeps env p hkeeps₁

/-- What a call of pure operands comes to. -/
theorem Exp.eval_call_of_isPure {V M : Type} (host : Host V M) (hf : f.isPure = true)
    (hargs : ∀ e ∈ args, e.isPure = true) (w : World V M) :
    (Exp.call f args).eval host w
      = w.call host (f.eval host w).1 (args.map fun e => (e.eval host w).1) := by
  rw [eval, eval_snd_of_isPure hf, evalAll_of_isPure hargs]

/-- **A call is made** with the values of its function and arguments, and its
answer is in the first clobbered register. -/
theorem callThrough_does {k : Nat} (hf : f.Ready n) (hargs : ∀ e ∈ args, e.Ready n) (hk : n ≤ k) :
    ∃ is m, Emits (callThrough f.cover.callee (Exp.selectAll args)) k () is m ∧ k ≤ m ∧
      (∀ i ∈ is, i.label? = none) ∧
      ∀ {M : Type} (env : Surroundings M) (regs : Temp → BitVec 64) (p : Processor M),
        ∃ regs' p', Does env is regs p regs' p' ∧
          SameResult (Temp.Settled k) ((Exp.call f args).eval env.host (p.world regs))
            (regs' (.fixed .eax), p'.world regs') := by
  obtain ⟨ts, is, m, hemits, hcomputes⟩ := Exp.selectAll_computes hargs k hk
  obtain ⟨callee, js, m', hemits', hcomputes'⟩ :=
    (Exp.cover_covers hf).callee m (Nat.le_trans hk hcomputes.le)
  refine ⟨is ++ (js ++ [callee.instruction ts]), m', hemits.bind (hemits'.bind ?_),
    Nat.le_trans hcomputes.le hcomputes'.le, ?_, fun env regs p => ?_⟩
  · cases callee <;> exact .emit _ m'
  · simp only [forall_mem_append, forall_mem_singleton]
    exact ⟨hcomputes.plain, hcomputes'.plain, by cases callee <;> rfl⟩
  · obtain ⟨regs₁, hdoes₁, hkeeps₁, hread₁⟩ := hcomputes.runs env regs p
    obtain ⟨regs₂, hdoes₂, hkeeps₂, hread₂⟩ := hcomputes'.runs env regs₁ p
    obtain ⟨litter, hperforms⟩ := Performs.call env regs₂ p callee ts
    have hfunction : callee.value env regs₂ p = (f.eval env.host (p.world regs)).1 :=
      hread₂.trans ((hf.mono hk).eval_of_keeps env p hkeeps₁)
    -- the arguments are settled by the time the function is computed
    have harguments : ts.map regs₂ = args.map fun e => (e.eval env.host (p.world regs)).1 := by
      rw [← hread₁]
      exact map_congr_left fun t ht => hkeeps₂ t (hcomputes.settled t ht)
    rw [hfunction, harguments] at hperforms
    rw [Exp.eval_call_of_isPure env.host hf.pure fun e he => (hargs e he).pure]
    have hsame := ((hkeeps₁.trans hkeeps₂ hcomputes.le).agree p).call env.host
      (f.eval env.host (p.world regs)).1 (args.map fun e => (e.eval env.host (p.world regs)).1)
    refine ⟨_, _, hdoes₁.append (hdoes₂.append (.single hperforms)), ?_, ?_⟩
    · have hne : Temp.fixed .eax ≠ Temp.fixed .edx := by decide
      rw [Function.update_of_ne hne, Function.update_self]
      exact hsame.value
    · refine (hsame.world.set_of_not ?_ _).set_of_not ?_ _
      · exact fun h => h.notMem (by decide)
      · exact fun h => h.notMem (by decide)

/-! ## Plain statements -/

namespace Stm

/-- Whether the statement is one that selection has a pattern for: not a
sequence, and a move only into a temp or a word. -/
def isPlain : Stm → Bool
  | move (.temp _) _ | move (.mem _) _ => true
  | move .. | seq .. => false
  | exp _ | jump _ | cjump .. | label _ => true

/-- A plain statement over expressions that satisfy `P`; a call stands only at
the top. -/
inductive Over (P : Exp → Prop) : Stm → Prop where
  | assign (d : Temp) {src : Exp} (hsrc : P src) : Over P (.move (.temp d) src)
  | assignCall (d : Temp) {f : Exp} {args : List Exp} (hf : P f) (hargs : ∀ e ∈ args, P e) :
      Over P (.move (.temp d) (.call f args))
  | store {address src : Exp} (haddress : P address) (hsrc : P src) :
      Over P (.move (.mem address) src)
  | exp {e : Exp} (he : P e) : Over P (.exp e)
  | expCall {f : Exp} {args : List Exp} (hf : P f) (hargs : ∀ e ∈ args, P e) :
      Over P (.exp (.call f args))
  | jump (l : Label) : Over P (.jump l)
  | cjump (rel : RelOp) {l r : Exp} (hl : P l) (hr : P r) (target : Label) :
      Over P (.cjump rel l r target)
  | label (l : Label) : Over P (.label l)

theorem Over.imp {P Q : Exp → Prop} (h : stm.Over P) (himp : ∀ e, P e → Q e) : stm.Over Q := by
  cases h with
  | assign d hsrc => exact .assign d (himp _ hsrc)
  | assignCall d hf hargs => exact .assignCall d (himp _ hf) fun e he => himp e (hargs e he)
  | store haddress hsrc => exact .store (himp _ haddress) (himp _ hsrc)
  | exp he => exact .exp (himp _ he)
  | expCall hf hargs => exact .expCall (himp _ hf) fun e he => himp e (hargs e he)
  | jump l => exact .jump l
  | cjump rel hl hr target => exact .cjump rel (himp _ hl) (himp _ hr) target
  | label l => exact .label l

end Stm

/-- The expression is pure, and it has no temps but these. -/
structure Exp.PureOn (on : Temp → Prop) (e : Exp) : Prop where
  pure : e.isPure = true
  temps : ∀ x ∈ e.nodes, ∀ t ∈ x.temp?, on t

section Canonical

variable {on : Temp → Prop}

/-- A canonical source is pure, or a call of pure operands. -/
theorem Exp.pureOn_or_call (h : e.isCanonicalSource = true)
    (htemps : ∀ x ∈ e.nodes, ∀ t ∈ x.temp?, on t) :
    e.PureOn on ∨ ∃ f args, e = .call f args ∧ f.PureOn on ∧ ∀ arg ∈ args, arg.PureOn on := by
  cases e with
  | call f args =>
    rw [isCanonicalSource, Bool.and_eq_true, all_eq_true] at h
    rw [nodes, nodesAll_eq, forall_mem_cons, forall_mem_append] at htemps
    refine .inr ⟨f, args, rfl, ⟨h.1, htemps.2.1⟩, fun arg harg => ⟨h.2 arg harg, ?_⟩⟩
    exact fun x hx => htemps.2.2 x (mem_flatMap.mpr ⟨arg, harg, hx⟩)
  | const | name | temp | binop | not | mem | eseq => exact .inl ⟨h, htemps⟩

/-- **Canonical plain statements** are statements over pure expressions. -/
theorem Stm.over_pureOn (hplain : stm.isPlain = true) (hcanonical : stm.isCanonical = true)
    (htemps : ∀ x ∈ stm.nodes, ∀ t ∈ x.temp?, on t) : stm.Over (Exp.PureOn on) := by
  cases stm with
  | seq a b => cases hplain
  | jump l => exact .jump l
  | label l => exact .label l
  | cjump rel l r target =>
    rw [isCanonical, Bool.and_eq_true] at hcanonical
    rw [nodes, Node.forall_mem_parts] at htemps
    exact .cjump rel ⟨hcanonical.1, htemps.2.1⟩ ⟨hcanonical.2, htemps.2.2⟩ target
  | exp e =>
    rw [nodes, forall_mem_cons] at htemps
    obtain he | ⟨f, args, rfl, hf, hargs⟩ := Exp.pureOn_or_call hcanonical htemps.2
    · exact .exp he
    · exact .expCall hf hargs
  | move dst src =>
    rw [nodes, Node.forall_mem_parts] at htemps
    cases dst with
    | temp d =>
      obtain hsrc | ⟨f, args, rfl, hf, hargs⟩ := Exp.pureOn_or_call hcanonical htemps.2.2
      · exact .assign d hsrc
      · exact .assignCall d hf hargs
    | mem address =>
      rw [isCanonical, Bool.and_eq_true] at hcanonical
      · rw [Exp.nodes, forall_mem_cons] at htemps
        exact .store ⟨hcanonical.1, htemps.2.1.2⟩ ⟨hcanonical.2, htemps.2.2⟩
      · intro t ht
        cases ht
    | const | name | binop | not | call | eseq => cases hplain

end Canonical

/-! ## The turns of plain statements -/

namespace Stm

variable {V M : Type} (host : Host V M) (w : World V M)

theorem turn_assign (d : Temp) (h : src.isPure = true) :
    (move (.temp d) src).turn host w = (none, w.set d (src.eval host w).1) := by
  show (none, (src.eval host w).2.set d (src.eval host w).1) = _
  rw [Exp.eval_snd_of_isPure h]

theorem turn_store {address : Exp} (haddress : address.isPure = true) (hsrc : src.isPure = true) :
    (move (.mem address) src).turn host w
      = (none, w.store host (address.eval host w).1 (src.eval host w).1) := by
  show (none, World.store host _ (address.eval host w).1 _) = _
  rw [Exp.eval_snd_of_isPure haddress, Exp.eval_snd_of_isPure hsrc]

theorem turn_exp (h : e.isPure = true) : (exp e).turn host w = (none, w) := by
  show (none, (e.eval host w).2) = _
  rw [Exp.eval_snd_of_isPure h]

theorem turn_cjump (rel : RelOp) {l r : Exp} (hl : l.isPure = true) (hr : r.isPure = true)
    (target : Label) :
    (cjump rel l r target).turn host w
      = (if host.holds rel (l.eval host w).1 (r.eval host w).1 then some target else none, w) := by
  simp only [turn, Exp.eval_snd_of_isPure hl, Exp.eval_snd_of_isPure hr]

variable {w}

/-- **A turn does not look at other temps** than those of the statement. -/
theorem turn_agree {on : Temp → Prop} (h : stm.Over (Exp.PureOn on)) {u : World V M}
    (hagree : Agree on w u) : SameResult on (stm.turn host w) (stm.turn host u) := by
  have hvalue {e : Exp} (he : e.PureOn on) : (e.eval host u).1 = (e.eval host w).1 :=
    Exp.eval_fst_of_agree he.pure hagree he.temps
  have hcall {f : Exp} {args : List Exp} (hf : f.PureOn on) (hargs : ∀ e ∈ args, e.PureOn on) :
      SameResult on ((Exp.call f args).eval host w) ((Exp.call f args).eval host u) := by
    rw [Exp.eval_call_of_isPure host hf.pure fun e he => (hargs e he).pure,
      Exp.eval_call_of_isPure host hf.pure fun e he => (hargs e he).pure, hvalue hf,
      map_congr_left fun e he => hvalue (hargs e he)]
    exact hagree.call host _ _
  cases h with
  | assign d hsrc =>
    rw [turn_assign host w d hsrc.pure, turn_assign host u d hsrc.pure, hvalue hsrc]
    exact ⟨rfl, hagree.set d _⟩
  | assignCall d hf hargs =>
    obtain ⟨hanswer, hworld⟩ := hcall hf hargs
    refine ⟨rfl, ?_⟩
    show Agree on (World.set _ d _) (World.set _ d _)
    rw [hanswer]
    exact hworld.set d _
  | store haddress hsrc =>
    rw [turn_store host w haddress.pure hsrc.pure, turn_store host u haddress.pure hsrc.pure,
      hvalue haddress, hvalue hsrc]
    exact ⟨rfl, hagree.store host _ _⟩
  | exp he =>
    rw [turn_exp host w he.pure, turn_exp host u he.pure]
    exact ⟨rfl, hagree⟩
  | expCall hf hargs => exact ⟨rfl, (hcall hf hargs).world⟩
  | jump | label => exact ⟨rfl, hagree⟩
  | cjump rel hl hr target =>
    rw [turn_cjump host w rel hl.pure hr.pure, turn_cjump host u rel hl.pure hr.pure, hvalue hl,
      hvalue hr]
    exact ⟨rfl, hagree⟩

end Stm

/-! ## Code for plain statements -/

/-- Where control goes after straight code that a jump may follow: to the label
of the jump if it is taken. -/
def decision {M : Type} (last : Option (Opcode × Label)) (p : Processor M) : Option Label :=
  last.bind fun j => if Surroundings.taken j.1 p.compared then some j.2 else none

/-- The jump that follows, if there is one. -/
def closing (last : Option (Opcode × Label)) : List Instruction :=
  last.toList.map fun j => .jump j.1 j.2

/-- Whether the statement decides where control goes. -/
def Stm.isBranch : Stm → Bool
  | .cjump .. => true
  | _ => false

/-- The straight code `is` and the jump after it are code for the statement:
they take its **turn**. A label is code for itself, and nothing else is
labelled; a branch ends with a branch, and nothing else does. -/
structure Stm.SelectedAs (stm : Stm) (n m : Nat) (is : List Instruction)
    (last : Option (Opcode × Label)) : Prop where
  le : n ≤ m
  labelled : ∀ l, stm.placed? = some l → is = [.label l]
  plain : stm.placed? = none → ∀ i ∈ is, i.label? = none
  jump : ∀ j ∈ last, j.1 = .jmp ∨ j.1.isBranch = true
  branch : last.any (·.1.isBranch) = stm.isBranch
  runs : ∀ {M : Type} (env : Surroundings M) (regs : Temp → BitVec 64) (p : Processor M),
    ∃ regs' p', Does env is regs p regs' p' ∧
      SameResult (Temp.Settled n) (stm.turn env.host (p.world regs))
        (decision last p', p'.world regs')

/-- The selection emits code for the statement, from any number on. -/
def Selects (x : SelectM Unit) (n : Nat) (stm : Stm) : Prop :=
  ∀ k, n ≤ k → ∃ is last m, Emits x k () (is ++ closing last) m ∧ stm.SelectedAs k m is last

namespace Selects

/-- Straight code for a statement that control goes through. -/
theorem straight {x : SelectM Unit} (hplaced : stm.placed? = none) (hbranch : stm.isBranch = false)
    (h : ∀ k, n ≤ k → ∃ is m, Emits x k () is m ∧ k ≤ m ∧ (∀ i ∈ is, i.label? = none) ∧
      ∀ {M : Type} (env : Surroundings M) (regs : Temp → BitVec 64) (p : Processor M),
        ∃ regs' p', Does env is regs p regs' p' ∧
          SameResult (Temp.Settled k) (stm.turn env.host (p.world regs))
            (none, p'.world regs')) : Selects x n stm := by
  intro k hk
  obtain ⟨is, m, hemits, hle, hplain, hruns⟩ := h k hk
  refine ⟨is, none, m, ?_, hle, fun l hl => ?_, fun _ => hplain, by simp, hbranch.symm, hruns⟩
  · rwa [closing, Option.toList_none, map_nil, append_nil]
  · rw [hplaced] at hl
    cases hl

/-- An instruction that sets a temp from what has been computed. -/
theorem assign {α : Type} {x : SelectM α} {reading : α → Reading} {e src : Exp} {d : Temp}
    (i : α → Instruction) (hx : Realises x reading n e) (hsrc : src.isPure = true)
    (hlabel : ∀ a, (i a).label? = none)
    (hperforms : ∀ {M : Type} (env : Surroundings M) (regs : Temp → BitVec 64) (p : Processor M) a,
      ∃ v, Performs env (i a) regs p (Function.update regs d v) p ∧
        ∀ w : World (BitVec 64) M, w.memory = p.memory →
          (reading a).read env regs p = (e.eval env.host w).1 → v = (src.eval env.host w).1) :
    Selects (x >>= fun a => emit (i a)) n (.move (.temp d) src) := by
  refine straight rfl rfl fun k hk => ?_
  obtain ⟨a, is, m, hemits, hcomputes⟩ := hx k hk
  refine ⟨is ++ [i a], m, hemits.bind (.emit _ m), hcomputes.le, ?_, fun env regs p => ?_⟩
  · exact forall_mem_append.mpr ⟨hcomputes.plain, forall_mem_singleton.mpr (hlabel a)⟩
  · obtain ⟨regs', hdoes, hkeeps, hread⟩ := hcomputes.runs env regs p
    obtain ⟨v, hperforms, hv⟩ := hperforms env regs' p a
    refine ⟨_, p, hdoes.append (.single hperforms), ?_⟩
    rw [Stm.turn_assign env.host _ d hsrc, ← hv (p.world regs) rfl hread]
    exact ⟨rfl, (hkeeps.agree p).set d v⟩

/-- An instruction that sets a temp by itself. -/
theorem assign_single {src : Exp} {d : Temp} {i : Instruction} (hsrc : src.isPure = true)
    (hlabel : i.label? = none)
    (hperforms : ∀ {M : Type} (env : Surroundings M) (regs : Temp → BitVec 64) (p : Processor M),
      Performs env i regs p (Function.update regs d (src.eval env.host (p.world regs)).1) p) :
    Selects (emit i) n (.move (.temp d) src) := by
  refine straight rfl rfl fun k _ => ⟨[i], k, .emit i k, Nat.le_refl k,
    forall_mem_singleton.mpr hlabel,
    fun env regs p => ⟨_, p, .single (hperforms env regs p), ?_⟩⟩
  rw [Stm.turn_assign env.host _ d hsrc]
  exact ⟨rfl, (Agree.refl (p.world regs)).set d _⟩

/-- A move of a pure source into a temp. -/
theorem move_temp (d : Temp) (h : src.Ready n) :
    Selects (Stm.selectMove (.temp d) src) n (.move (.temp d) src) := by
  -- the patterns that take the value by way of a temp of its own
  have hcopy (hselect : Stm.selectMove (.temp d) src
        = src.cover.value >>= fun t => emit (.mov d t)) :
      Selects (Stm.selectMove (.temp d) src) n (.move (.temp d) src) := by
    rw [hselect]
    exact assign (.mov d) (Exp.cover_covers h).value h.pure (fun _ => rfl) fun env regs p t =>
      ⟨_, .mov env regs p d t, fun _ _ hread => hread⟩
  cases src with
  | call | eseq => cases h.pure
  | const c => exact assign_single rfl rfl fun env regs p => .movImm env regs p d c
  | name l => exact assign_single rfl rfl fun env regs p => .movSymbol env regs p d l
  | mem a =>
    refine assign (.load d) (Exp.cover_covers h.mem).address h.pure (fun _ => rfl)
      fun env regs p address => ⟨_, .load env regs p d address, fun w hmemory hread => ?_⟩
    rw [Exp.eval, Exp.eval_snd_of_isPure h.mem.pure, hmemory]
    exact congrArg (env.load p.memory) hread
  | temp | binop | not => exact hcopy rfl

/-- A move of the answer to a call. -/
theorem move_call (d : Temp) (hf : f.Ready n) (hargs : ∀ e ∈ args, e.Ready n) :
    Selects (Stm.selectMove (.temp d) (.call f args)) n (.move (.temp d) (.call f args)) := by
  refine straight rfl rfl fun k hk => ?_
  obtain ⟨is, m, hemits, hle, hplain, hruns⟩ := callThrough_does hf hargs hk
  refine ⟨is ++ [.mov d (.fixed .eax)], m, hemits.bind (.emit _ m), hle, ?_, fun env regs p => ?_⟩
  · exact forall_mem_append.mpr ⟨hplain, forall_mem_singleton.mpr rfl⟩
  · obtain ⟨regs', p', hdoes, hanswer, hworld⟩ := hruns env regs p
    refine ⟨_, p', hdoes.append (.single (.mov env regs' p' d _)), rfl, ?_⟩
    rw [show regs' (.fixed .eax) = _ from hanswer]
    exact hworld.set d _

/-- A call for nothing but what it does. -/
theorem exp_call (hf : f.Ready n) (hargs : ∀ e ∈ args, e.Ready n) :
    Selects (callThrough f.cover.callee (Exp.selectAll args)) n (.exp (.call f args)) := by
  refine straight rfl rfl fun k hk => ?_
  obtain ⟨is, m, hemits, hle, hplain, hruns⟩ := callThrough_does hf hargs hk
  refine ⟨is, m, hemits, hle, hplain, fun env regs p => ?_⟩
  obtain ⟨regs', p', hdoes, _, hworld⟩ := hruns env regs p
  exact ⟨regs', p', hdoes, rfl, hworld⟩

/-- A store: the value is computed before the address. -/
theorem move_mem {a : Exp} (ha : a.Ready n) (hsrc : src.Ready n) :
    Selects (Stm.selectMove (.mem a) src) n (.move (.mem a) src) := by
  refine straight rfl rfl fun k hk => ?_
  obtain ⟨t, is, m, hemits, hcomputes⟩ := (Exp.cover_covers hsrc).value k hk
  obtain ⟨address, js, m', hemits', hcomputes'⟩ :=
    (Exp.cover_covers ha).address m (Nat.le_trans hk hcomputes.le)
  refine ⟨is ++ (js ++ [.store address t]), m', hemits.bind (hemits'.bind (.emit _ m')),
    Nat.le_trans hcomputes.le hcomputes'.le, ?_, fun env regs p => ?_⟩
  · simp only [forall_mem_append, forall_mem_singleton]
    exact ⟨hcomputes.plain, hcomputes'.plain, rfl⟩
  · obtain ⟨regs', hdoes, hkeeps, hvalue, haddress⟩ :=
      hcomputes.pair hcomputes' (ha.mono hk) env regs p
    have hdoes' := hdoes.append (.single (.store env regs' p address t))
    rw [append_assoc] at hdoes'
    refine ⟨regs', _, hdoes', ?_⟩
    rw [Stm.turn_store env.host _ ha.pure hsrc.pure, ← hvalue, ← haddress]
    exact ⟨rfl, (hkeeps.agree p).store env.host _ _⟩

/-- A value that nobody looks at. -/
theorem exp (h : e.Ready n) : Selects (do let _ ← e.select) n (.exp e) := by
  refine straight rfl rfl fun k hk => ?_
  obtain ⟨t, is, m, hemits, hcomputes⟩ := (Exp.cover_covers h).value k hk
  refine ⟨is, m, hemits.map _, hcomputes.le, hcomputes.plain, fun env regs p => ?_⟩
  obtain ⟨regs', hdoes, hkeeps, _⟩ := hcomputes.runs env regs p
  rw [Stm.turn_exp env.host _ h.pure]
  exact ⟨regs', p, hdoes, rfl, hkeeps.agree p⟩

theorem jump (l : Label) : Selects (emit (.jump .jmp l)) n (.jump l) := by
  intro k _
  refine ⟨[], some (.jmp, l), k, .emit _ k, Nat.le_refl k, fun _ h => ?_, by simp, by simp, rfl,
    fun env regs p => ⟨regs, p, .nil regs p, rfl, .refl _⟩⟩
  cases h

theorem label (l : Label) : Selects (emit (.label l)) n (.label l) := by
  intro k _
  refine ⟨[.label l], none, k, .emit _ k, Nat.le_refl k, fun _ h => ?_, fun h => ?_, by simp,
    rfl, fun env regs p => ⟨regs, p, .single (.label env regs p l), rfl, .refl _⟩⟩
  · rw [Option.some.inj h]
  · cases h

/-- A comparison and a jump that is taken if the relation holds. -/
theorem compare {x : SelectM Unit} {rel : RelOp} {l r : Exp} {target : Label} {opcode : Opcode}
    (hopcode : opcode.isBranch = true) (hl : l.isPure = true) (hr : r.isPure = true)
    (h : ∀ k, n ≤ k → ∃ is m, Emits x k () (is ++ [.jump opcode target]) m ∧ k ≤ m ∧
      (∀ i ∈ is, i.label? = none) ∧
      ∀ {M : Type} (env : Surroundings M) (regs : Temp → BitVec 64) (p : Processor M),
        ∃ regs' compared, Does env is regs p regs' { p with compared } ∧ Keeps k regs regs' ∧
          Surroundings.taken opcode compared
            = Surroundings.relation rel (l.eval env.host (p.world regs)).1
                (r.eval env.host (p.world regs)).1) :
    Selects x n (.cjump rel l r target) := by
  intro k hk
  obtain ⟨is, m, hemits, hle, hplain, hruns⟩ := h k hk
  refine ⟨is, some (opcode, target), m, hemits, hle, fun _ h => ?_, fun _ => hplain, ?_,
    hopcode, fun env regs p => ?_⟩
  · cases h
  · simpa using .inr hopcode
  · obtain ⟨regs', compared, hdoes, hkeeps, htaken⟩ := hruns env regs p
    refine ⟨regs', _, hdoes, ?_⟩
    rw [Stm.turn_cjump env.host _ rel hl hr]
    refine ⟨?_, hkeeps.agree p⟩
    show (if Surroundings.taken opcode compared then some target else none) = _
    rw [htaken]
    rfl

end Selects

/-! ## Branches -/

theorem isBranch_branch (rel : RelOp) : (branch rel).isBranch = true := by cases rel <;> rfl

theorem isBranch_flippedBranch (rel : RelOp) : (flippedBranch rel).isBranch = true := by
  cases rel <;> rfl

theorem taken_branch (rel : RelOp) (x y : BitVec 64) :
    Surroundings.taken (branch rel) (x, y) = Surroundings.relation rel x y := by
  cases rel <;> rfl

/-- With its sides exchanged, a comparison is made for the relation seen from
the other side. -/
theorem taken_flippedBranch (rel : RelOp) (x y : BitVec 64) :
    Surroundings.taken (flippedBranch rel) (y, x) = Surroundings.relation rel x y := by
  cases rel with
  | eq => exact BEq.comm
  | neq => exact bne_comm
  | lt => rfl

namespace Selects

variable {rel : RelOp} {l r : Exp} {target : Label}

/-- One side is compared with a constant. -/
theorem compare_const {e : Exp} {c : Int64} {opcode : Opcode} (hopcode : opcode.isBranch = true)
    (hl : l.isPure = true) (hr : r.isPure = true) (he : e.Ready n)
    (htaken : ∀ {M : Type} (env : Surroundings M) (w : World (BitVec 64) M),
      Surroundings.taken opcode ((e.eval env.host w).1, c.toBitVec)
        = Surroundings.relation rel (l.eval env.host w).1 (r.eval env.host w).1) :
    Selects (do emit (.cmpImm (← e.select) c); emit (.jump opcode target)) n
      (.cjump rel l r target) := by
  refine compare hopcode hl hr fun k hk => ?_
  obtain ⟨t, is, m, hemits, hcomputes⟩ := (Exp.cover_covers he).value k hk
  refine ⟨is ++ [.cmpImm t c], m, ?_, hcomputes.le, ?_, fun env regs p => ?_⟩
  · rw [append_assoc]
    exact hemits.bind ((Emits.emit _ m).bind (.emit _ m))
  · exact forall_mem_append.mpr ⟨hcomputes.plain, forall_mem_singleton.mpr rfl⟩
  · obtain ⟨regs', hdoes, hkeeps, hread⟩ := hcomputes.runs env regs p
    refine ⟨regs', _, hdoes.append (.single (.cmpImm env regs' p t c)), hkeeps, ?_⟩
    rw [show regs' t = _ from hread]
    exact htaken env (p.world regs)

/-- Both sides are compared. -/
theorem compare_both (hl : l.Ready n) (hr : r.Ready n) : Selects (do
      let a ← l.select
      let b ← r.select
      emit (.cmp a b)
      emit (.jump (branch rel) target)) n (.cjump rel l r target) := by
  refine compare (isBranch_branch rel) hl.pure hr.pure fun k hk => ?_
  obtain ⟨a, is, m, hemits, hcomputes⟩ := (Exp.cover_covers hl).value k hk
  obtain ⟨b, js, m', hemits', hcomputes'⟩ :=
    (Exp.cover_covers hr).value m (Nat.le_trans hk hcomputes.le)
  refine ⟨is ++ js ++ [.cmp a b], m', ?_, Nat.le_trans hcomputes.le hcomputes'.le, ?_,
    fun env regs p => ?_⟩
  · rw [append_assoc, append_assoc]
    exact hemits.bind (hemits'.bind ((Emits.emit _ m').bind (.emit _ m')))
  · simp only [forall_mem_append, forall_mem_singleton]
    exact ⟨⟨hcomputes.plain, hcomputes'.plain⟩, rfl⟩
  · obtain ⟨regs', hdoes, hkeeps, hread, hread'⟩ :=
      hcomputes.pair hcomputes' (hr.mono hk) env regs p
    refine ⟨regs', _, hdoes.append (.single (.cmp env regs' p a b)), hkeeps, ?_⟩
    rw [← hread, ← hread']
    exact taken_branch rel _ _

/-- **A branch** is taken if and only if its relation holds. -/
theorem branch (rel : RelOp) (hl : l.Ready n) (hr : r.Ready n) (target : Label) :
    Selects (Stm.selectBranch rel l r target) n (.cjump rel l r target) := by
  unfold Stm.selectBranch
  split
  · exact compare_const (isBranch_branch rel) hl.pure hr.pure hl fun env w => taken_branch rel _ _
  · exact compare_const (isBranch_flippedBranch rel) hl.pure hr.pure hr fun env w =>
      taken_flippedBranch rel _ _
  · exact compare_both hl hr

end Selects

/-- **Every plain canonical statement is selected**, whatever its pattern. -/
theorem Stm.select_selects (h : stm.Over (Exp.Ready n)) : Selects stm.select n stm := by
  cases h with
  | assign d hsrc => exact .move_temp d hsrc
  | assignCall d hf hargs => exact .move_call d hf hargs
  | store haddress hsrc => exact .move_mem haddress hsrc
  | @exp e he =>
    cases e with
    | call f args => cases he.pure
    | const | name | temp | binop | not | mem | eseq => exact .exp he
  | expCall hf hargs => exact .exp_call hf hargs
  | jump l => exact .jump l
  | cjump rel hl hr target => exact .branch rel hl hr target
  | label l => exact .label l

end TreeBackend
