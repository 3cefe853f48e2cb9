import TreeBackend.Proofs.Pieces
import TreeBackend.Proofs.SelectedStatements

/-!
# Code for bodies

The code of a method is made of pieces, one for each statement of its body,
between an instruction that enters the method and one that returns. A label
stands at the start of its piece, so a jump lands where the body has it land,
and the processor runs the code **statement by statement**: whenever the body
stands before a statement, the processor comes to stand at the start of its
piece, with the same memory, the same calls behind it, and the same words in
the temps of the session.

Both sides are seen with the decisions their branches have made. A body may
leave for a label it does not place; the processor then stands at the jump to
that label, which it cannot take.
-/

namespace TreeBackend

open List Machine Selection World Option

/-! ## Bodies and their decisions -/

/-- What a statement decides: a branch, whether it leaves for its target. -/
def Stm.decisions {V M : Type} (host : Host V M) (stm : Stm) (w : World V M) : List Bool :=
  if stm.isBranch then [(stm.turn host w).1.isSome] else []

namespace Body

/-- What is decided in the next step. -/
def decisions {V M : Type} (host : Host V M) (body : List Stm) : State V M → List Bool
  | ⟨.before index, w⟩ => body[index]?.elim [] fun stm => stm.decisions host w
  | ⟨.away _, _⟩ => []

/-- A step of a body, and the decisions made so far. -/
def Decides {V M : Type} (host : Host V M) (body : List Stm) (x y : State V M × List Bool) : Prop :=
  Step host body x.1 y.1 ∧ y.2 = x.2 ++ decisions host body x.1

end Body

/-! ## The code of a method -/

/-- The code of a method from the pieces of its body. -/
def methodCode (entry : List Temp) (pieces : List (List Instruction)) (exit : List Temp) :
    List Instruction :=
  .enter entry :: (pieces.flatten ++ [.ret exit])

/-- The piece is code selected for the statement. -/
def Stm.CodePiece (n : Nat) (stm : Stm) (piece : List Instruction) : Prop :=
  ∃ k m is last, n ≤ k ∧ piece = is ++ closing last ∧ stm.SelectedAs k m is last

/-- Selection goes from statement to statement. -/
theorem stms_emits {n : Nat} {body : List Stm} (h : ∀ stm ∈ body, stm.Over (Exp.Ready n)) :
    ∀ k, n ≤ k → ∃ pieces m, Emits (stms body) k () pieces.flatten m ∧
      List.Forall₂ (Stm.CodePiece n) body pieces := by
  induction body with
  | nil => exact fun k _ => ⟨[], k, .pure () k, .nil⟩
  | cons stm body ih =>
    intro k hk
    rw [forall_mem_cons] at h
    obtain ⟨is, last, m, hemits, hselected⟩ := Stm.select_selects h.1 k hk
    obtain ⟨pieces, m', hemits', hpieces⟩ := ih h.2 m (Nat.le_trans hk hselected.le)
    exact ⟨(is ++ closing last) :: pieces, m', hemits.bind hemits',
      .cons ⟨k, m, is, last, hk, rfl, hselected⟩ hpieces⟩

/-- What is emitted is the code. -/
theorem Emits.run {α : Type} {x : SelectM α} {s : Session} {r : α} {is : List Instruction} {m : Nat}
    (h : Emits x s.tempCount r is m) :
    ∃ code s', Yields (Selection.run x) s (r, code) s' ∧ code.instructions = is := by
  obtain ⟨t, hx, his, _⟩ := h { session := s } rfl
  refine ⟨t.code, ((Selection.run x).run.run s).2, Prod.ext ?_ rfl, his⟩
  show (x.run.run { session := s }).1.map (·, (x.run.run { session := s }).2.code) = _
  rw [show x.run.run { session := s } = (.ok r, t) from hx]
  rfl

/-- **Selection succeeds**, and the code of a method is made of pieces. -/
theorem ofMethod_yields {s : Session} {body : List Stm}
    (h : ∀ stm ∈ body, stm.Over (Exp.Ready s.tempCount)) (entry exit : List Temp) :
    ∃ code s' pieces, Yields (ofMethod body entry exit) s code s' ∧
      code.instructions = methodCode entry pieces exit ∧
      List.Forall₂ (Stm.CodePiece s.tempCount) body pieces := by
  obtain ⟨pieces, m, hemits, hpieces⟩ := stms_emits h s.tempCount (Nat.le_refl _)
  have hmethod : Emits (do emit (.enter entry); stms body; emit (.ret exit)) s.tempCount ()
      (methodCode entry pieces exit) m :=
    (Emits.emit _ _).bind (hemits.bind (.emit _ m))
  obtain ⟨code, s', hyields, hcode⟩ := hmethod.run
  exact ⟨code, s', pieces, yields_bind.mpr ⟨_, s', hyields, yields_pure.mpr ⟨rfl, rfl⟩⟩, hcode,
    hpieces⟩

/-! ## Places in the code -/

section Places

variable {n : Nat} {body : List Stm} {pieces : List (List Instruction)} (entry exit : List Temp)

/-- What stands in a piece stands in the code. -/
theorem getElem?_methodCode {k j : Nat} {piece : List Instruction}
    (hk : pieces[k]? = some piece) (hj : j < piece.length) :
    (methodCode entry pieces exit)[1 + start pieces k + j]? = piece[j]? := by
  have hpiece := getElem?_flatten_start hk hj
  have hlt : start pieces k + j < pieces.flatten.length := by
    rw [List.getElem?_eq_getElem hj] at hpiece
    exact (List.getElem?_eq_some_iff.mp hpiece).1
  rw [methodCode, Nat.add_assoc, Nat.add_comm 1, List.getElem?_cons_succ,
    List.getElem?_append_left hlt, hpiece]

/-- The return stands behind all pieces. -/
theorem getElem?_methodCode_length :
    (methodCode entry pieces exit)[1 + start pieces pieces.length]? = some (.ret exit) := by
  rw [methodCode, start_length, Nat.add_comm, List.getElem?_cons_succ,
    List.getElem?_append_right (Nat.le_refl _), Nat.sub_self]
  rfl

theorem label?_of_mem_closing {last : Option (Opcode × Label)}
    (h : ∀ j ∈ last, j.1 = .jmp ∨ j.1.isBranch = true) : ∀ i ∈ closing last, i.label? = none := by
  intro i hi
  obtain ⟨⟨opcode, l⟩, hlast, rfl⟩ := mem_map.mp hi
  have hopcode : opcode ≠ .label := by
    rintro rfl
    simpa [Opcode.isBranch] using h _ (mem_toList.mp hlast)
  cases opcode with
  | label => exact absurd rfl hopcode
  | _ => rfl

/-- A label stands at the start of its piece. -/
theorem labelIndex?_methodCode (h : List.Forall₂ (Stm.CodePiece n) body pieces) (l : Label) :
    Flow.labelIndex? (methodCode entry pieces exit) l
      = (Body.place? body l).map fun k => 1 + start pieces k := by
  have hpieces : Flow.labelIndex? pieces.flatten l = (Body.place? body l).map (start pieces) := by
    refine findIdx?_flatten (h.imp fun stm piece hpiece => ?_)
    obtain ⟨_, _, is, last, _, rfl, hselected⟩ := hpiece
    refine ⟨fun hplaced => ?_, fun hplaced i hi => decide_eq_false fun hlabel => ?_⟩
    · rw [hselected.labelled l (of_decide_eq_true hplaced)]
      exact ⟨.label l, closing last, rfl, decide_eq_true rfl⟩
    · -- only a label has a labelled instruction, and then with its own name
      have hclosing := label?_of_mem_closing hselected.jump
      cases hstm : stm.placed? with
      | none =>
        rw [forall_mem_append.mpr ⟨hselected.plain hstm, hclosing⟩ i hi] at hlabel
        cases hlabel
      | some l' =>
        rw [hselected.labelled l' hstm] at hi
        obtain rfl | hi := mem_cons.mp hi
        · exact of_decide_eq_false hplaced (hstm.trans hlabel)
        · rw [hclosing i hi] at hlabel
          cases hlabel
  unfold Flow.labelIndex? at hpieces ⊢
  rw [methodCode, List.findIdx?_cons, if_neg (by simp [Instruction.enter, Instruction.label?]),
    List.findIdx?_append, hpieces]
  cases Body.place? body l with
  | none => simp [Instruction.ret, Instruction.label?]
  | some k => simp [Nat.add_comm]

end Places

/-! ## Jumps -/

section Jumps

variable {M : Type} {env : Surroundings M} {code : List Instruction} {opcode : Opcode} {l : Label}
  {k : Nat} {regs : Temp → BitVec 64} {p : Processor M}

/-- How a jump is left. -/
def jumpExit (opcode : Opcode) (p : Processor M) : Exit :=
  if Surroundings.taken opcode p.compared then .target 0 else .next

/-- A jump does nothing but that it is taken or not. -/
theorem acts_jump (h : opcode = .jmp ∨ opcode.isBranch = true) (values : List (BitVec 64)) :
    env.behaviour.acts (Instruction.jump opcode l).operation values p
      ⟨[], p, none, jumpExit opcode p⟩ := by
  left
  cases opcode with
  | jmp | je | jne | jl | jg => rfl
  | _ => simp [Opcode.isBranch] at h

/-- Where a jump leads, the processor goes. -/
theorem moves_jump (h : opcode = .jmp ∨ opcode.isBranch = true)
    (hcode : code[k]? = some (.jump opcode l)) {next : Nat}
    (hgoes : continueAt code (.jump opcode l) k (jumpExit opcode p) = some next)
    (log : List Bool) :
    env.Moves code (⟨k, regs, p⟩, log)
      (⟨next, regs, p⟩, log ++ Surroundings.decided (.jump opcode l) (jumpExit opcode p)) := by
  refine Surroundings.moves_iff.mpr ⟨_, _, next, hcode, acts_jump h _, rfl, hgoes, ?_⟩
  show _ = (Machine.Config.mk next (writeAll regs [] _) p, _)
  rw [writeAll_nil]

/-- A jump that is taken leads nowhere if its label is not placed. -/
theorem not_moves_jump (h : opcode = .jmp ∨ opcode.isBranch = true)
    (hcode : code[k]? = some (.jump opcode l))
    (htaken : Surroundings.taken opcode p.compared = true)
    (hplace : Flow.labelIndex? code l = none) (log : List Bool) (y : Surroundings.Logged M) :
    ¬ env.Moves code (⟨k, regs, p⟩, log) y := by
  intro hmoves
  obtain ⟨i, out, next, hfetched, hacts, harity, hgoes, -⟩ := Surroundings.moves_iff.mp hmoves
  obtain rfl := some.inj (hcode.symm.trans hfetched)
  obtain rfl := Surroundings.acts_unique hacts (acts_jump h _) harity
  rw [jumpExit, if_pos htaken] at hgoes
  exact some_ne_none next (hgoes.symm.trans hplace)

/-- A method has run when control comes to its return. -/
theorem not_moves_ret {exit : List Temp} (hcode : code[k]? = some (.ret exit)) (log : List Bool)
    (y : Surroundings.Logged M) : ¬ env.Moves code (⟨k, regs, p⟩, log) y := by
  intro hmoves
  obtain ⟨i, out, next, hfetched, hacts, -⟩ := Surroundings.moves_iff.mp hmoves
  obtain rfl := some.inj (hcode.symm.trans hfetched)
  obtain hexecute | ⟨henter, -⟩ := hacts
  · cases hexecute
  · cases henter

end Jumps

/-! ## Simulation -/

/-- A temp of the session that is no fixed register. -/
def Session.OwnsFree (s : Session) (t : Temp) : Prop := s.Owns t ∧ t.pinned? = none

instance (s : Session) : DecidablePred s.OwnsFree :=
  fun t => inferInstanceAs (Decidable (s.Owns t ∧ t.pinned? = none))

section Simulation

variable {M : Type} {env : Surroundings M} {s : Session} {body : List Stm}
  {pieces : List (List Instruction)} {entry exit : List Temp}

/-- Where the processor stands for a place in the body, and what remains for it
to decide: at the start of a piece nothing; out of the body it stands at the jump
that it would take and cannot. -/
def StandsAt (body : List Stm) (pieces : List (List Instruction)) (code : List Instruction)
    (log : List Bool) (y : Surroundings.Logged M) : Control → Prop
  | .before k => k ≤ body.length ∧ y.1.index = 1 + start pieces k ∧ y.2 = log
  | .away l => ∃ opcode : Opcode, (opcode = .jmp ∨ opcode.isBranch = true) ∧
      code[y.1.index]? = some (.jump opcode l) ∧
      Surroundings.taken opcode y.1.memory.compared = true ∧ Flow.labelIndex? code l = none ∧
      y.2 ++ Surroundings.decided (.jump opcode l) (.target 0) = log

/-- The body and the processor **match**: they stand at the same place, have
decided the same, and have made the same calls; the memory is the same, and so
are all temps of the session. -/
structure Matches (s : Session) (body : List Stm) (pieces : List (List Instruction))
    (code : List Instruction) (x : Body.State (BitVec 64) M × List Bool)
    (y : Surroundings.Logged M) : Prop where
  place : StandsAt body pieces code x.2 y x.1.control
  world : Agree s.OwnsFree x.1.world (y.1.memory.world y.1.regs)

/-- A jump decides what its statement does. -/
theorem decided_jump (opcode : Opcode) (l : Label) (p : Processor M) :
    Surroundings.decided (.jump opcode l) (jumpExit opcode p)
      = if opcode.isBranch then [(decision (some (opcode, l)) p).isSome] else [] := by
  unfold Surroundings.decided jumpExit decision
  rw [bind_some]
  cases Surroundings.taken opcode p.compared with
  | true | false => rfl

/-- The processor **goes on** from a piece as the body goes on from its
statement, in at least one move, or it need not move and the body has come
closer to its end. -/
def GoesOn (env : Surroundings M) (s : Session) (body : List Stm)
    (pieces : List (List Instruction)) (code : List Instruction) (k : Nat)
    (x : Body.State (BitVec 64) M × List Bool) (y : Surroundings.Logged M) : Prop :=
  ∃ y', Matches s body pieces code x y' ∧ (Relation.TransGen (env.Moves code) y y' ∨
      y' = y ∧ Body.remaining body x.1 < body.length - k)

theorem GoesOn.of_steps {code : List Instruction} {k : Nat}
    {x : Body.State (BitVec 64) M × List Bool} {y y' : Surroundings.Logged M}
    (hmatches : Matches s body pieces code x y') (h : Relation.ReflTransGen (env.Moves code) y y')
    (hremaining : Body.remaining body x.1 < body.length - k) :
    GoesOn env s body pieces code k x y := by
  refine ⟨y', hmatches, ?_⟩
  obtain heq | htrans := Relation.reflTransGen_iff_eq_or_transGen.mp h
  · exact .inr ⟨heq, hremaining⟩
  · exact .inl htrans

/-- The jump at the end of a piece leads where the body goes on. -/
theorem goesOn_jump (h : List.Forall₂ (Stm.CodePiece s.tempCount) body pieces) {k index : Nat}
    {opcode : Opcode} {l : Label} {regs : Temp → BitVec 64} {p : Processor M}
    {w : World (BitVec 64) M} {y : Surroundings.Logged M} {log : List Bool} (hk : k < body.length)
    (hopcode : opcode = .jmp ∨ opcode.isBranch = true)
    (hcode : (methodCode entry pieces exit)[index]? = some (.jump opcode l))
    (hindex : index + 1 = 1 + start pieces (k + 1)) (hagree : Agree s.OwnsFree w (p.world regs))
    (hsteps : Relation.ReflTransGen (env.Moves (methodCode entry pieces exit)) y
      (⟨index, regs, p⟩, log)) :
    GoesOn env s body pieces (methodCode entry pieces exit) k
      (⟨Body.onward body k (decision (some (opcode, l)) p), w⟩,
        log ++ Surroundings.decided (.jump opcode l) (jumpExit opcode p)) y := by
  have hplaces := labelIndex?_methodCode entry exit h l
  have hmove (next : Nat) (hgoes : continueAt (methodCode entry pieces exit) (.jump opcode l) index
      (jumpExit opcode p) = some next) :=
    Relation.TransGen.tail' hsteps (moves_jump hopcode hcode hgoes log)
  cases htaken : Surroundings.taken opcode p.compared with
  | true =>
    have hdecision : decision (some (opcode, l)) p = some l := if_pos htaken
    have hexit : jumpExit opcode p = .target 0 := if_pos htaken
    rw [hdecision]
    cases hplace : Body.place? body l with
    | none =>
      -- the processor stays at the jump
      have honward : Body.onward body k (some l) = .away l := by
        rw [Body.onward, Body.landing, hplace]
        rfl
      rw [honward]
      rw [hplace] at hplaces
      refine .of_steps ⟨?_, hagree⟩ hsteps (Nat.sub_pos_of_lt hk)
      exact ⟨opcode, hopcode, hcode, htaken, hplaces, by rw [hexit]⟩
    | some k' =>
      have honward : Body.onward body k (some l) = .before k' := by
        rw [Body.onward, Body.landing, hplace]
        rfl
      rw [hplace] at hplaces
      refine ⟨_, ⟨?_, hagree⟩, .inl (hmove (1 + start pieces k') ?_)⟩
      · rw [honward]
        exact ⟨Body.inside_onward hk _ k' honward, rfl, rfl⟩
      · rw [hexit]
        exact hplaces
  | false =>
    -- only a branch can be passed
    have hbranch : opcode.isBranch = true := by
      obtain rfl | hbranch := hopcode
      · cases htaken
      · exact hbranch
    have hdecision : decision (some (opcode, l)) p = none := if_neg (by simp [htaken])
    rw [hdecision]
    refine ⟨_, ⟨⟨hk, hindex, rfl⟩, hagree⟩, .inl (hmove _ ?_)⟩
    rw [show jumpExit opcode p = .next from if_neg (by simp [htaken])]
    cases opcode with
    | je | jne | jl | jg => rfl
    | _ => cases hbranch

/-- **A piece is run through** as its statement is. -/
theorem goesOn_piece (env : Surroundings M) (entry exit : List Temp)
    (h : List.Forall₂ (Stm.CodePiece s.tempCount) body pieces) {k : Nat} {stm : Stm}
    (hk : body[k]? = some stm) (hover : stm.Over (Exp.PureOn s.OwnsFree))
    {regs : Temp → BitVec 64} {p : Processor M} {w : World (BitVec 64) M}
    (hagree : Agree s.OwnsFree w (p.world regs)) (log : List Bool) :
    GoesOn env s body pieces (methodCode entry pieces exit) k
      (⟨Body.onward body k (stm.turn env.host w).1, (stm.turn env.host w).2⟩,
        log ++ stm.decisions env.host w) (⟨1 + start pieces k, regs, p⟩, log) := by
  obtain ⟨piece, hpiece, n, m, is, last, hle, rfl, hselected⟩ := exists_piece h hk
  obtain ⟨regs', p', hdoes, hsame⟩ := hselected.runs env regs p
  have hturn : SameResult s.OwnsFree (stm.turn env.host w) (decision last p', p'.world regs') :=
    (Stm.turn_agree env.host hover hagree).trans hsame fun t ht => .of_owns ht.1 ht.2 hle
  have hlt : k < body.length := (List.getElem?_eq_some_iff.mp hk).1
  have hsteps := hdoes.moves (methodCode entry pieces exit) (k := 1 + start pieces k)
    (fun j hj => ?_) log
  · -- both sides have come to the same turn, which a jump takes if there is one
    rw [Stm.decisions, ← hselected.branch, ← hturn.value]
    cases last with
    | none =>
      have hstart : 1 + start pieces k + is.length = 1 + start pieces (k + 1) := by
        rw [start_succ hpiece, closing, toList_none, map_nil, append_nil, Nat.add_assoc]
      exact .of_steps ⟨⟨hlt, hstart, (append_nil log).symm⟩, hturn.world⟩ hsteps
        (Nat.sub_succ_lt_self _ _ hlt)
    | some jump =>
      have hlast : (methodCode entry pieces exit)[1 + start pieces k + is.length]?
          = some (.jump jump.1 jump.2) := by
        rw [getElem?_methodCode entry exit hpiece (by simp [closing]),
          List.getElem?_append_right (Nat.le_refl _), Nat.sub_self]
        rfl
      have hstart : 1 + start pieces k + is.length + 1 = 1 + start pieces (k + 1) := by
        rw [start_succ hpiece, length_append, Nat.add_assoc, Nat.add_assoc]
        rfl
      have hgoes := goesOn_jump h hlt (hselected.jump jump rfl) hlast hstart hturn.world hsteps
      rwa [decided_jump] at hgoes
  · rw [getElem?_methodCode entry exit hpiece (by rw [length_append]; omega),
      List.getElem?_append_left hj]

/-- **Simulation.** The code of a method simulates its body. -/
theorem methodCode_simulation (h : List.Forall₂ (Stm.CodePiece s.tempCount) body pieces)
    (hover : ∀ stm ∈ body, stm.Over (Exp.PureOn s.OwnsFree)) (env : Surroundings M)
    (entry exit : List Temp) :
    Simulation (Body.Decides env.host body) (env.Moves (methodCode entry pieces exit))
      (Matches s body pieces (methodCode entry pieces exit))
      fun x => Body.remaining body x.1 where
  unique := Surroundings.moves_unique
  stop := by
    rintro ⟨⟨control, w⟩, decided⟩ ⟨⟨index, regs, p⟩, log⟩ hmatches hstop y
    cases control with
    | away l =>
      obtain ⟨opcode, hopcode, hcode, htaken, hplace, -⟩ := hmatches.place
      exact not_moves_jump hopcode hcode htaken hplace log y
    | before k =>
      obtain ⟨hle, hindex, -⟩ := hmatches.place
      have hend : body.length ≤ k := Body.length_le_of_stop fun c hc => hstop (c, _) ⟨hc, rfl⟩
      obtain rfl := Nat.le_antisymm hle hend
      obtain rfl : index = _ := hindex
      rw [h.length_eq]
      exact not_moves_ret (getElem?_methodCode_length entry exit) log y
  step := by
    rintro ⟨⟨control, w⟩, decided⟩ ⟨⟨index, regs, p⟩, log⟩ ⟨c, decided'⟩ hmatches ⟨hstep, hdecided⟩
    cases control with
    | away l => cases hstep
    | before k =>
      obtain ⟨-, hindex, hlog⟩ := hmatches.place
      obtain rfl : index = _ := hindex
      obtain rfl : log = decided := hlog
      obtain rfl : decided' = _ := hdecided
      obtain ⟨stm, hstm, rfl⟩ := map_eq_some_iff.mp hstep
      obtain ⟨y, hmatches', hmoves⟩ := goesOn_piece env entry exit h hstm
        (hover stm (mem_of_getElem? hstm)) hmatches.world log
      rw [Body.decisions, hstm]
      obtain htrans | ⟨rfl, hremaining⟩ := hmoves
      · exact .inl ⟨y, htrans, hmatches'⟩
      · exact .inr ⟨hmatches', hremaining⟩

/-- The registers when a method has been entered. -/
def Surroundings.arrive (env : Surroundings M) (entry : List Temp) (regs : Temp → BitVec 64) :
    Temp → BitVec 64 :=
  writeAll regs entry ((List.range entry.length).map env.arriving)

theorem moves_enter (env : Surroundings M) (regs : Temp → BitVec 64) (p : Processor M) :
    env.Moves (methodCode entry pieces exit) (⟨0, regs, p⟩, [])
      (⟨1, env.arrive entry regs, p⟩, []) := by
  refine Surroundings.moves_iff.mpr
    ⟨_, Surroundings.straight ((List.range entry.length).map env.arriving) p, 1, rfl,
      .inr ⟨rfl, _, rfl⟩, ?_, rfl, rfl⟩
  simp [Surroundings.straight, Instruction.enter]

end Simulation

/-- Selection has a pattern for the statement: it is plain and canonical, and its
temps are temps of the session and no fixed registers. -/
def Stm.Selectable (s : Session) (stm : Stm) : Prop :=
  stm.isPlain = true ∧ stm.isCanonical = true ∧ ∀ x ∈ stm.nodes, ∀ t ∈ x.temp?, s.OwnsFree t

instance (s : Session) : DecidablePred (Stm.Selectable s) := fun stm =>
  inferInstanceAs (Decidable (stm.isPlain = true ∧ stm.isCanonical = true ∧
    ∀ x ∈ stm.nodes, ∀ t ∈ x.temp?, s.OwnsFree t))

/-- **Selected code runs as its body.** Every body of selectable statements has
code, a piece for each statement. In all surroundings, from all registers and
any memory, the code and the body run alike: whenever the body stands before a
statement, the processor comes to the start of its piece, and

* the branches on both sides have decided the same so far;
* the same calls have been made, with the same functions and arguments and in
  the same order;
* the memory is the same, and so is every temp of the session that is no fixed
  register.

Neither side ends unless the other does. -/
theorem Selection.ofMethod_preserves_runs {s : Session} {body : List Stm}
    (h : ∀ stm ∈ body, stm.Selectable s) (entry exit : List Temp) :
    ∃ code s' pieces, (ofMethod body entry exit).run.run s = (.ok code, s') ∧
      code.instructions = methodCode entry pieces exit ∧ pieces.length = body.length ∧
      ∀ {M : Type} (env : Surroundings M) (regs : Temp → BitVec 64) (p : Processor M)
        (w : World (BitVec 64) M), Agree s.OwnsFree w (p.world (env.arrive entry regs)) →
        RunAlike (Body.Decides env.host body) (env.Moves code.instructions)
          (Matches s body pieces code.instructions) (⟨.before 0, w⟩, []) (⟨0, regs, p⟩, []) := by
  have hover : ∀ stm ∈ body, stm.Over (Exp.PureOn s.OwnsFree) := fun stm hstm =>
    Stm.over_pureOn (h stm hstm).1 (h stm hstm).2.1 (h stm hstm).2.2
  have hready : ∀ stm ∈ body, stm.Over (Exp.Ready s.tempCount) := fun stm hstm =>
    (hover stm hstm).imp fun e he => ⟨he.pure, fun x hx t ht =>
      .of_owns (he.temps x hx t ht).1 (he.temps x hx t ht).2 (Nat.le_refl _)⟩
  obtain ⟨code, s', pieces, hyields, hcode, hpieces⟩ := ofMethod_yields hready entry exit
  refine ⟨code, s', pieces, hyields, hcode, hpieces.length_eq.symm, fun env regs p w hagree => ?_⟩
  rw [hcode]
  have hmatches : Matches s body pieces (methodCode entry pieces exit) (⟨.before 0, w⟩, [])
      (⟨1, env.arrive entry regs, p⟩, []) := ⟨⟨Nat.zero_le _, rfl, rfl⟩, hagree⟩
  refine ((methodCode_simulation hpieces hover env entry exit).runAlike hmatches).head
    (moves_enter env regs p) fun hmoves => ?_
  exact Surroundings.moves_unique hmoves (moves_enter env regs p)

/-- A loop that asks for what is left of a word of memory by three, stores a
product, and goes on while a constant is less than the answer. Two addresses
have displacements, and the constant is compared from the wrong side. -/
def askLoop : List Stm := let base : Temp := ⟨7, .plain "base"⟩
  let item : Temp := ⟨8, .plain "item"⟩
  [ .label ⟨"loop"⟩,
    .move (.temp item) (.binop .mod (.mem (.binop .minus (.temp base) (.const 8))) (.const 3)),
    .move (.temp item) (.call (.name ⟨"ask"⟩) [.temp item, .not (.temp base)]),
    .move (.mem (.plus (.const 16) (.temp base))) (.binop .mul (.const 5) (.temp item)),
    .cjump .lt (.const 5) (.temp item) ⟨"loop"⟩ ]

theorem Selection.ofMethod_preserves_runs_askLoop :
    (∀ stm ∈ askLoop, stm.Selectable (.ofTemps ["base", "item", "x"])) ∧
    ∃ code s' pieces, (ofMethod askLoop [⟨7, .plain "base"⟩] [.fixed .eax]).run.run
        (.ofTemps ["base", "item", "x"]) = (.ok code, s') ∧
      code.instructions = methodCode [⟨7, .plain "base"⟩] pieces [.fixed .eax] ∧
      pieces.length = askLoop.length ∧
      ∀ {M : Type} (env : Surroundings M) (regs : Temp → BitVec 64) (p : Processor M),
        RunAlike (Body.Decides env.host askLoop) (env.Moves code.instructions)
          (Matches (.ofTemps ["base", "item", "x"]) askLoop pieces code.instructions)
          (⟨.before 0, p.world (env.arrive [⟨7, .plain "base"⟩] regs)⟩, [])
          (⟨0, regs, p⟩, []) := by
  refine ⟨by decide, ?_⟩
  obtain ⟨code, s', pieces, hselected, hcode, hlength, hruns⟩ :=
    ofMethod_preserves_runs (s := .ofTemps ["base", "item", "x"])
      (show ∀ stm ∈ askLoop, stm.Selectable _ by decide) [⟨7, .plain "base"⟩] [.fixed .eax]
  exact ⟨code, s', pieces, hselected, hcode, hlength,
    fun env regs p => hruns env regs p _ (.refl _)⟩

end TreeBackend
