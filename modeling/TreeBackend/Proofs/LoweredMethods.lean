import TreeBackend.Proofs.FrameLayout
import TreeBackend.Proofs.LoweredExpressions

/-!
# What lowered statements do

A statement and the code it is lowered to run alike (`Stmt.Exec.runs`): they
make the same calls, leave the same memory and the same content of the registers
that the method works with. The code of a branch or a loop is put together from
the code of its parts by jumps to labels that are placed once.
-/

namespace TreeBackend

open List Program World

variable {a b a' b' : Session} {name : String} {z : Bool} {value : Expr} {x : BitVec 64} {k : Nat}
  {m : MethodDecl} {arrays : ArrayLayout} {table : ClassTable} {tree : MethodTree}

/-! ## The code of branches and loops -/

namespace Body

/-- Code that is run on two ways: `no` if the test is passed through, and `yes`
if the test leaves for `l₁`. -/
def conditional (test no yes : List Stm) (l₀ l₁ done : Label) : List Stm :=
  test ++ ((.label l₀ :: no ++ [.jump done]) ++ .label l₁ :: (yes ++ [.jump done, .label done]))

/-- Code that is run again and again, until the test is passed through. -/
def loop (test turn : List Stm) (again body done : Label) : List Stm :=
  .label again :: ((test ++ ([.jump done] ++ .label body :: (turn ++ [.jump again]))) ++
    [.label done])

section Labels

variable {test no yes turn : List Stm} {l₀ l₁ done again body : Label}

/-- The labels of both ways and of the end, each in its place. -/
theorem labels_conditional : labels (conditional test no yes l₀ l₁ done) =
    labels test ++ l₀ :: (labels no ++ l₁ :: (labels yes ++ [done])) := by
  simp [conditional]

/-- The labels of a loop, in the order in which control meets them. -/
theorem labels_loop : labels (loop test turn again body done) =
    again :: (labels test ++ body :: (labels turn ++ [done])) := by
  simp [loop]

/-- A test does not land on the label that it leaves for. -/
theorem of_nodup_conditional (h : (labels (conditional test no yes l₀ l₁ done)).Nodup) :
    (labels test).Nodup ∧ l₁ ∉ labels test := by
  rw [labels_conditional] at h
  grind

/-- Nor does the test of a loop. -/
theorem of_nodup_loop (h : (labels (loop test turn again body done)).Nodup) :
    (labels test).Nodup ∧ body ∉ labels test := by
  rw [labels_loop] at h
  grind

end Labels

namespace Ends

variable {V M : Type} {host : Host V M} {test no yes turn : List Stm} {w w₁ w₂ w' : World V M}
  {l₀ l₁ done again body : Label}

/-- Where the test leaves for `l₁`, control passes over the other way. -/
theorem conditional_true (htest : Ends host test w (some l₁) w₁) (hyes : Ends host yes w₁ none w')
    (hnodup : (labels (conditional test no yes l₀ l₁ done)).Nodup) :
    Ends host (conditional test no yes l₀ l₁ done) w none w' := by
  have hlabels : (labels yes ++ [done]).Nodup := by
    rw [labels_conditional] at hnodup
    grind
  obtain ⟨hlabels', -, hdone⟩ := nodup_append.mp hlabels
  have hjump := hyes.then_jump hlabels' fun hmem => hdone done hmem done (by simp) rfl
  have hrest : Ends host (yes ++ [.jump done, .label done]) w₁ none w' := by
    have := hjump.land [] (.nil w') (by simpa using hlabels) (by simp)
    rwa [append_assoc] at this
  exact htest.land _ hrest hnodup (by simp)

/-- Where the test is left at its end, control jumps over `yes`. -/
theorem conditional_false (htest : Ends host test w none w₁) (hno : Ends host no w₁ none w')
    (hnodup : (labels (conditional test no yes l₀ l₁ done)).Nodup) :
    Ends host (conditional test no yes l₀ l₁ done) w none w' := by
  have heq : conditional test no yes l₀ l₁ done = ((test ++ ([.label l₀] ++ no)) ++ [.jump done]) ++
        ((.label l₁ :: (yes ++ [.jump done])) ++ .label done :: []) := by
    simp [conditional]
  have hlabels : (labels (test ++ ([.label l₀] ++ no))).Nodup ∧
      done ∉ labels (test ++ ([.label l₀] ++ no)) := by
    rw [labels_conditional] at hnodup
    grind
  have hlabels' := hlabels.1
  rw [labels_append] at hlabels'
  have hfirst := htest.append (Ends.append (.label l₀ w₁) hno (nodup_append.mp hlabels').2.1
    (by simp)) hlabels.1 (by simp)
  rw [heq] at hnodup ⊢
  exact (hfirst.then_jump hlabels.1 hlabels.2).land _ (.nil w') hnodup (by simp)

/-- A loop ends where its test is left at the end. -/
theorem loop_false (htest : Ends host test w none w')
    (hnodup : (labels (loop test turn again body done)).Nodup) :
    Ends host (loop test turn again body done) w none w' := by
  have heq : loop test turn again body done = (([.label again] ++ test) ++ [.jump done]) ++
        ((.label body :: (turn ++ [.jump again])) ++ .label done :: []) := by
    simp [loop]
  have hlabels : (labels ([.label again] ++ test)).Nodup ∧
      done ∉ labels ([.label again] ++ test) := by
    rw [labels_loop] at hnodup
    grind
  have hfirst := Ends.append (.label again w) htest hlabels.1 (by simp)
  rw [heq] at hnodup ⊢
  exact (hfirst.then_jump hlabels.1 hlabels.2).land _ (.nil w') hnodup (by simp)

/-- **One turn of a loop**, and then the loop once more. -/
theorem loop_true (htest : Ends host test w (some body) w₁) (hturn : Ends host turn w₁ none w₂)
    (hrest : Ends host (loop test turn again body done) w₂ none w')
    (hnodup : (labels (loop test turn again body done)).Nodup) :
    Ends host (loop test turn again body done) w none w' := by
  have hlabels : (labels test ++ body :: labels turn).Nodup ∧
      again ∉ labels test ++ body :: labels turn := by
    rw [labels_loop] at hnodup
    grind
  have hturn' : Ends host (turn ++ [.jump again]) w₁ (some again) w₂ :=
    hturn.then_jump (by grind) (by grind)
  have hround : Ends host (test ++ ([.jump done] ++ .label body :: (turn ++ [.jump again]))) w
      (some again) w₂ := by
    refine htest.land [.jump done] hturn' (by simpa using hlabels.1) ?_
    rintro _ ⟨⟩
    grind
  exact hround.again hrest hnodup

end Ends

end Body

namespace Stm

variable {branch no yes turn : Stm} {l₀ l₁ done again body : Label} {code : List Stm}

/-- The code of a conditional is the conditional of the code. -/
theorem Renders.of_conditional (h : Renders [conditional branch no yes l₀ l₁ done] a code b) :
    ∃ c u no' v yes', Yields branch.canonicalize a c u ∧ Renders [no] u no' v ∧
      Renders [yes] v yes' b ∧ code = Body.conditional c.linear no' yes' l₀ l₁ done := by
  obtain ⟨c, u, _, hc, htail, rfl⟩ := renders_cons.mp (renders_seqAll.mp h)
  obtain ⟨_, hnos, rfl⟩ := renders_cons_label.mp htail
  obtain ⟨no', v, _, hno, hjump, rfl⟩ := renders_cons_singleton.mp hnos
  obtain ⟨_, hlabel, rfl⟩ := renders_cons_jump.mp hjump
  obtain ⟨_, hyess, rfl⟩ := renders_cons_label.mp hlabel
  obtain ⟨yes', v', _, hyes, hend, rfl⟩ := renders_cons_singleton.mp hyess
  simp only [renders_cons_jump, renders_cons_label, renders_nil] at hend
  obtain ⟨_, ⟨_, ⟨rfl, rfl⟩, rfl⟩, rfl⟩ := hend
  exact ⟨c, u, no', v, yes', hc, hno, hyes, by simp [Body.conditional]⟩

/-- The code of a loop is the loop of the code. -/
theorem Renders.of_loop (h : Renders [loop branch turn again body done] a code b) :
    ∃ c u turn', Yields branch.canonicalize a c u ∧ Renders [turn] u turn' b ∧
      code = Body.loop c.linear turn' again body done := by
  obtain ⟨_, htest, rfl⟩ := renders_cons_label.mp (renders_seqAll.mp h)
  obtain ⟨c, u, _, hc, hjump, rfl⟩ := renders_cons.mp htest
  obtain ⟨_, hlabel, rfl⟩ := renders_cons_jump.mp hjump
  obtain ⟨_, hturns, rfl⟩ := renders_cons_label.mp hlabel
  obtain ⟨turn', v, _, hturn, hend, rfl⟩ := renders_cons_singleton.mp hturns
  simp only [renders_cons_jump, renders_cons_label, renders_nil] at hend
  obtain ⟨_, ⟨_, ⟨rfl, rfl⟩, rfl⟩, rfl⟩ := hend
  exact ⟨c, u, turn', hc, hturn, by simp [Body.loop]⟩

/-- The code of a statement places its labels as often as the statement does. -/
theorem Renders.nodup_labels {stm : Stm} {code : List Stm} (h : Renders [stm] a' code b')
    (hnodup : stm.labels.Nodup) : (Body.labels code).Nodup := by
  rw [h.labels, flatMap_singleton]
  exact hnodup

end Stm

/-! ## Statements -/

section Statements

variable {M : Type} {s : Scope} {lo : Nat} {w u : World (BitVec 64) M}

/-- The content of the registers of a method is known where it does not change. -/
theorem Scope.Under.knows (h : s.Under lo) (regs : Temp → BitVec 64) :
    s.Knows regs (fun f => ∀ t, s.Reads t → f t = regs t) lo where
  holds _ hf := hf
  stable _ _ hsame hf t ht := (hsame t (h t ht)).trans (hf t ht)
  under := h

/-- Worlds that agree still do after an action that one of them takes in new
temps. -/
theorem Scope.Under.agree (h : s.Under lo) {n : Nat} {y : Mark} {u' : World (BitVec 64) M}
    {o : Outside (BitVec 64) M} (hagree : w.Agree s.Reads u) (hkept : KeptBetween ⟨lo, n⟩ y u u')
    (ho : u'.outside = o) : (w.withOutside o).Agree s.Reads u' :=
  .of_outside (fun t ht => (hkept t (.inl (h t ht n))).trans (hagree.temps t ht)) ho

/-- **The destination of an assignment** is a register, or a word whose address
is computed first. -/
theorem Scope.Knows.destination {regs : Temp → BitVec 64} {known : (Temp → BitVec 64) → Prop}
    (h : s.Knows regs known lo) (env : Surroundings M) {dst : Exp} (hdst : s.lookup name = .ok dst) :
    (∃ t, dst = .temp t ∧ s.locate env regs name = pure (.register t)) ∨
    ∃ address m, dst = .mem address ∧ address.Means env.host known lo lo m ∧
      ∀ {o place o'}, Gives (s.locate env regs name) o place o' →
        ∃ v, place = .word v ∧ Gives m o v o' := by
  obtain ⟨access, haccess, rfl⟩ | ⟨c, index, object, hnone, hc, hindex, hthis, rfl⟩ :=
    of_lookup hdst
  · rw [locate_of_find? haccess]
    cases access with
    | register t => exact .inl ⟨t, rfl, rfl⟩
    | frame offset =>
      refine .inr ⟨_, _, rfl, h.frame_means env offset, ?_⟩
      intro o place o' hgives
      obtain ⟨rfl, rfl⟩ := gives_pure.mp hgives
      exact ⟨_, rfl, gives_pure.mpr ⟨rfl, rfl⟩⟩
  · refine .inr ⟨_, _, rfl, h.field_means hthis (c.layout.offset index), ?_⟩
    intro o place o' hgives
    obtain ⟨x, hreceiver, rfl⟩ := (gives_locate_field hnone hc hindex).mp hgives
    exact ⟨_, rfl, gives_bind.mpr ⟨x, o', hreceiver, gives_pure.mpr ⟨rfl, rfl⟩⟩⟩

end Statements

namespace Program.Stmt

variable {M : Type}

/-- Lowered, the statement **runs** from worlds like `w` to worlds like `w'`. -/
def Runs (env : Surroundings M) (s : Scope) (stmt : Stmt) (w w' : World (BitVec 64) M) : Prop :=
  ∀ ⦃a b : Session⦄ ⦃stm : Stm⦄, Yields (stmt.lower s) a stm b → s.Under a.tempCount →
    ∀ ⦃a' b' : Session⦄ ⦃code : List Stm⦄, Stm.Renders [stm] a' code b' →
      ∀ ⦃u : World (BitVec 64) M⦄, w.Agree s.Reads u →
        ∃ u', Body.Ends env.host code u none u' ∧ w'.Agree s.Reads u'

namespace Runs

variable {env : Surroundings M} {s : Scope} {w w₁ w₂ w' : World (BitVec 64) M}

/-- An empty block changes nothing. -/
theorem nil (w : World (BitVec 64) M) : Runs env s (.block []) w w := by
  intro a b stm hstm _ a' b' code hcode u hagree
  obtain ⟨stms, hstms, rfl⟩ := yields_lower_block.mp hstm
  obtain ⟨rfl, rfl⟩ := yields_pure.mp hstms
  obtain ⟨rfl, rfl⟩ := Stm.renders_nil.mp (Stm.renders_seqAll.mp hcode)
  exact ⟨u, .nil u, hagree⟩

/-- **A block** runs its first statement, then the others. -/
theorem cons {first : Stmt} {rest : List Stmt} (head : Runs env s first w w₁)
    (tail : Runs env s (.block rest) w₁ w') : Runs env s (.block (first :: rest)) w w' := by
  intro a b stm hstm hunder a' b' code hcode u hagree
  have hnodup := hcode.nodup_labels (draws s _ hstm).nodup
  obtain ⟨stms, hstms, rfl⟩ := yields_lower_block.mp hstm
  obtain ⟨t, v, ts, ht, hts, rfl⟩ := yields_lowerAll_cons.mp hstms
  obtain ⟨code₁, v', code₂, hcode₁, hcode₂, rfl⟩ :=
    Stm.renders_cons_singleton.mp (Stm.renders_seqAll.mp hcode)
  obtain ⟨u₁, hends₁, hagree₁⟩ := head ht hunder hcode₁ hagree
  obtain ⟨u₂, hends₂, hagree₂⟩ := tail (yields_lower_block.mpr ⟨ts, hts, rfl⟩)
    (hunder.mono (draws s _ ht).temps) (Stm.renders_seqAll.mpr hcode₂) hagree₁
  exact ⟨u₂, hends₁.append hends₂ hnodup (by simp), hagree₂⟩

/-! ### Conditions -/

/-- **A condition** and its branch go the same way. -/
theorem condition {condition : Expr} (hlength : condition.usesLength = false) {v : Session}
    (hunder : s.Under a.tempCount) {f : Fragment} (hf : Yields (condition.lower s) a f v)
    {branch : Stm} {target : Label} (hbranch : Yields (f.toBranch .eq target) v branch b) {c : Stm}
    (hc : Yields branch.canonicalize a' c b') (hnodup : (Body.labels c.linear).Nodup)
    (htarget : target ∉ Body.labels c.linear)
    (test : w.Gives (condition.eval env s w.temps).truth z w₁) {u : World (BitVec 64) M}
    (hagree : w.Agree s.Reads u) :
    ∃ u', Body.Ends env.host c.linear u (if z then some target else none) u' ∧
      w₁.Agree s.Reads u' := by
  obtain ⟨o, hgives, rfl⟩ := test
  have hknows := hunder.knows w.temps
  have hmeans := condition.lowers env s hlength hknows hf (Nat.le_refl _)
  rw [(Stm.hasForm _ hc).labels] at hnodup htarget
  rw [← hagree.outside] at hgives
  obtain ⟨u', hends, hkept, ho⟩ := (hmeans.branches_eq hknows.stable hbranch).runs hnodup htarget hc
    hgives hagree.temps
  exact ⟨u', hends, hunder.agree hagree hkept ho⟩

/-- **A conditional** runs the statement that its condition asks for. -/
theorem ite {condition : Expr} {whenTrue whenFalse : Stmt} (hlength : condition.usesLength = false)
    (test : w.Gives (condition.eval env s w.temps).truth z w₁)
    (branch : Runs env s (if z then whenTrue else whenFalse) w₁ w') :
    Runs env s (.ite condition whenTrue whenFalse) w w' := by
  intro a b stm hstm hunder a' b' code hcode u hagree
  have hnodup := hcode.nodup_labels (draws s _ hstm).nodup
  obtain ⟨thenLabel, elseLabel, done, v, f, v₁, jump, v₂, no, v₃, yes, hdraws, hf, hjump, hno, hyes,
    rfl⟩ := of_lower_ite hstm
  have hunder₁ := hunder.mono hdraws.temps
  have hunder₂ := hunder₁.mono (condition.draws s hf).temps
  have hunder₃ := hunder₂.mono (Fragment.le_of_toBranch hjump)
  have hunder₄ := hunder₃.mono (draws s _ hno).temps
  obtain ⟨c, x, no', x', yes', hc, hno', hyes', rfl⟩ := hcode.of_conditional
  obtain ⟨hnodup', htarget⟩ := Body.of_nodup_conditional hnodup
  obtain ⟨u₁, hends₁, hagree₁⟩ := Runs.condition hlength hunder₁ hf hjump hc hnodup' htarget test
    hagree
  cases z with
  | true =>
    obtain ⟨u', hends, hagree'⟩ := branch hyes hunder₄ hyes' hagree₁
    exact ⟨u', hends₁.conditional_true hends hnodup, hagree'⟩
  | false =>
    obtain ⟨u', hends, hagree'⟩ := branch hno hunder₃ hno' hagree₁
    exact ⟨u', hends₁.conditional_false hends hnodup, hagree'⟩

/-- One look at the condition of a loop, and what comes after it. -/
theorem «while» {condition : Expr} {body : Stmt} (hlength : condition.usesLength = false)
    {z : Bool} (test : w.Gives (condition.eval env s w.temps).truth z w₁)
    (after : if z then ∃ w₂, Runs env s body w₁ w₂ ∧ Runs env s (.while condition body) w₂ w'
      else w₁ = w') : Runs env s (.while condition body) w w' := by
  intro a b stm hstm hunder a' b' code hcode u hagree
  have hnodup := hcode.nodup_labels (draws s _ hstm).nodup
  obtain ⟨testLabel, bodyLabel, done, v, f, v₁, jump, v₂, turn, hdraws, hf, hjump, hturn, rfl⟩ :=
    of_lower_while hstm
  have hunder₁ := hunder.mono hdraws.temps
  have hunder₂ := hunder₁.mono (condition.draws s hf).temps
  have hunder₃ := hunder₂.mono (Fragment.le_of_toBranch hjump)
  obtain ⟨c, x, turn', hc, hturn', rfl⟩ := hcode.of_loop
  obtain ⟨hnodup', htarget⟩ := Body.of_nodup_loop hnodup
  obtain ⟨u₁, hends₁, hagree₁⟩ := Runs.condition hlength hunder₁ hf hjump hc hnodup' htarget test
    hagree
  cases z with
  | true =>
    obtain ⟨w₂, hbody, hrest⟩ := after
    obtain ⟨u₂, hends₂, hagree₂⟩ := hbody hturn hunder₃ hturn' hagree₁
    -- the rest of the loop runs in the same code, from its start
    obtain ⟨u', hends, hagree'⟩ := hrest hstm hunder hcode hagree₂
    exact ⟨u', hends₁.loop_true hends₂ hends hnodup, hagree'⟩
  | false =>
    obtain rfl := after
    exact ⟨u₁, hends₁.loop_false hnodup, hagree₁⟩

/-! ### Calls and assignments -/

/-- **Printing** is a call with the value, and its answer is dropped. -/
theorem print {answer : BitVec 64} (hlength : value.usesLength = false)
    (operand : w.Gives (value.eval env s w.temps) x w₁)
    (call : w₁.Gives (Action.call env.host (env.address ⟨printName⟩) [x]) answer w') :
    Runs env s (.print value) w w' := by
  intro a b stm hstm hunder a' b' code hcode u hagree
  have hnodup := (draws s _ hstm).nodup
  obtain ⟨t, v, ht, -, rfl⟩ := of_lower_print hstm
  obtain ⟨c, hc, rfl⟩ := Stm.renders_singleton.mp hcode
  have hknows := hunder.knows w.temps
  have ht' := value.value_means env hlength hknows ht
  obtain ⟨o₁, hoperand, rfl⟩ := operand
  obtain ⟨o₂, hcall, rfl⟩ := call
  rw [← hagree.outside] at hoperand
  obtain ⟨u', hends, hkept, ho⟩ := (ht'.call_name hknows.stable ⟨printName⟩).drop hnodup hc
    (gives_bind.mpr ⟨x, o₁, hoperand, hcall⟩) hagree.temps
  exact ⟨u', hends, hunder.agree (w := w) hagree hkept ho⟩

/-- **An assignment** finds the place first and the value after it. -/
theorem assign {place : Place} (hlength : value.usesLength = false)
    (locate : w.Gives (s.locate env w.temps name) place w₁)
    (source : w₁.Gives (value.eval env s w₁.temps) x w') :
    Runs env s (.assign name value) w (place.write env w' x) := by
  intro a b stm hstm hunder a' b' code hcode u hagree
  have hnodup := (draws s _ hstm).nodup
  obtain ⟨dst, t, hdst, ht, rfl⟩ := of_lower_assign hstm
  obtain ⟨c, hc, rfl⟩ := Stm.renders_singleton.mp hcode
  have hknows := hunder.knows w.temps
  have ht' := value.value_means env hlength hknows ht
  obtain ⟨o₁, hlocate, rfl⟩ := locate
  obtain ⟨o₂, hsource, rfl⟩ := source
  rw [← hagree.outside] at hlocate
  rw [Stm.labels_move] at hnodup
  obtain ⟨r, rfl, hplace⟩ | ⟨address, m, rfl, haddress, hplace⟩ := hknows.destination env hdst
  · rw [hplace] at hlocate
    obtain ⟨rfl, rfl⟩ := gives_pure.mp hlocate
    obtain ⟨u', hends, hkept, ho⟩ := ht'.move_temp (u := u) hnodup hc hsource hagree.temps
    exact ⟨_, hends, (hunder.agree (w := w) hagree hkept ho).set r x⟩
  · obtain ⟨y, rfl, hy⟩ := hplace hlocate
    obtain ⟨u', hends, hkept, ho⟩ := haddress.move_mem ht' hknows.stable hnodup hc hy hsource
      hagree.temps
    exact ⟨_, hends, (hunder.agree (w := w) hagree hkept ho).store env.host y x⟩

/-- **An element** is assigned after array, index and value are known. -/
theorem arrayAssign {position : Expr} {base index : BitVec 64}
    (hposition : position.usesLength = false) (hvalue : value.usesLength = false)
    (array : w.Gives (s.valueOf env w.temps name) base w₁)
    (subscript : w₁.Gives (position.eval env s w₁.temps) index w₂)
    (source : w₂.Gives (value.eval env s w₂.temps) x w') :
    Runs env s (.arrayAssign name position value) w
      (w'.store env.host (s.arrays.elementAddress base index) x) := by
  intro a b stm hstm hunder a' b' code hcode u hagree
  have hnodup := (draws s _ hstm).nodup
  obtain ⟨e, t₁, v, t₂, he, ht₁, ht₂, rfl⟩ := of_lower_arrayAssign hstm
  obtain ⟨c, hc, rfl⟩ := Stm.renders_singleton.mp hcode
  have hknows := hunder.knows w.temps
  have ht₁' := position.value_means env hposition hknows ht₁
  have ht₂' := value.value_means env hvalue (hknows.mono ht₁'.le) ht₂
  have haddress := s.arrays.address_means (hknows.lookup_means he) ht₁' hknows.stable
  obtain ⟨o₁, harray, rfl⟩ := array
  obtain ⟨o₂, hsubscript, rfl⟩ := subscript
  obtain ⟨o₃, hsource, rfl⟩ := source
  rw [← hagree.outside] at harray
  rw [Stm.labels_move] at hnodup
  obtain ⟨u', hends, hkept, ho⟩ := haddress.move_mem ht₂' hknows.stable hnodup hc
    (gives_bind.mpr ⟨base, o₁, harray, gives_bind.mpr ⟨index, o₂, hsubscript,
      gives_pure.mpr ⟨rfl, rfl⟩⟩⟩) hsource hagree.temps
  exact ⟨_, hends, (hunder.agree (w := w) hagree hkept ho).store env.host _ x⟩

end Runs

/-- **Lowered statements run** as the statements do, unless they ask for the
length of an array. -/
theorem Exec.runs {env : Surroundings M} {s : Scope} {stmt : Stmt} {w w' : World (BitVec 64) M}
    (h : Exec env s stmt w w') (hlength : stmt.usesLength = false) : Runs env s stmt w w' := by
  induction h with
  | nil w => exact .nil w
  | cons _ _ ihhead ihtail =>
    rw [usesLength, anyUsesLength, Bool.or_eq_false_iff] at hlength
    exact .cons (ihhead hlength.1) (ihtail hlength.2)
  | iteTrue test _ ih =>
    rw [usesLength, Bool.or_eq_false_iff, Bool.or_eq_false_iff] at hlength
    exact .ite hlength.1.1 test (ih hlength.1.2)
  | iteFalse test _ ih =>
    rw [usesLength, Bool.or_eq_false_iff, Bool.or_eq_false_iff] at hlength
    exact .ite hlength.1.1 test (ih hlength.2)
  | whileTrue test _ _ ihturn ihrest =>
    have hlength' := hlength
    rw [usesLength, Bool.or_eq_false_iff] at hlength
    exact .while hlength.1 test ⟨_, ihturn hlength.2, ihrest hlength'⟩
  | whileFalse test =>
    rw [usesLength, Bool.or_eq_false_iff] at hlength
    exact .while hlength.1 test rfl
  | print operand call => exact .print hlength operand call
  | assign locate source => exact .assign hlength locate source
  | arrayAssign array subscript source =>
    rw [usesLength, Bool.or_eq_false_iff] at hlength
    exact .arrayAssign hlength.1 hlength.2 array subscript source

end Program.Stmt

/-! ## Frames -/

namespace Frame

variable {frame : Frame}

/-- The temps of a method's frame were drawn for it. -/
theorem drawn_methodFrame {className : String}
    (h : (ClassTable.methodFrame className m).run a = (frame, b)) : frame.Drawn b.tempCount :=
  (built_methodFrame h).laid.drawn

/-- The temp of the result holds no formal. -/
theorem Drawn.result_notMem (h : frame.Drawn k) : frame.result ∉ frame.registerFormals := by
  intro hmem
  obtain ⟨_, -, hlt, -⟩ := h.formals _ hmem
  exact Nat.lt_irrefl _ hlt

/-- What a method reads was drawn with its frame. -/
theorem Drawn.under {s : Scope} (h : s.frame.Drawn k) : s.Under k := by
  rintro t (rfl | ht) n
  · exact trivial
  · obtain ⟨name, hkind, -, hlt⟩ := h.formals t ht
    unfold Temp.Under
    rw [hkind]
    exact hlt

end Frame

/-! ## Methods -/

namespace MethodTree

/-- What is in scope in the method of the tree. -/
def scope (tree : MethodTree) (class? : Option ClassInfo) (table : ClassTable)
    (arrays : ArrayLayout) : Scope :=
  { key := tree.name, class?, frame := tree.frame, table, arrays }

/-- What the tree of a method is made of: its frame, its body and its result. -/
theorem of_ofMethod {c : ClassDecl} (h : Yields (ofMethod c m table arrays) a tree b) :
    ∃ info u stms v t, table.find c.name = .ok info ∧
      (ClassTable.methodFrame c.name m).run a = (tree.frame, u) ∧
      Yields (Stmt.lowerAll (tree.scope (some info) table arrays) m.body) u stms v ∧
      Yields (lowerValue (m.result.lower (tree.scope (some info) table arrays))) v t b ∧
      tree.body.toStm = Stm.seqAll (stms ++ [.move (.temp tree.frame.result) t]) := by
  simp only [ofMethod, yields_bind, yields_liftExcept, yields_lift, yields_pure] at h
  obtain ⟨info, _, ⟨hinfo, rfl⟩, frame, u, hframe, stms, v, hstms, f, v', hf, t, b', ht, rfl,
    rfl⟩ := h
  exact ⟨info, u, stms, v, t, hinfo, hframe, hstms, yields_lowerValue.mpr ⟨f, v', hf, ht⟩, rfl⟩

/-- A main method has a frame without variables. -/
theorem of_ofMain {program : Program} (h : Yields (ofMain program table arrays) a tree b) :
    ∃ u, (Frame.new (ClassTable.mainKey program.mainName)).run a = (tree.frame, u) ∧
      Yields ((Stmt.block program.mainBody).lower (tree.scope none table arrays)) u
        tree.body.toStm b := by
  simp only [ofMain, yields_bind, yields_lift, yields_pure] at h
  obtain ⟨frame, u, hframe, stms, b', hstms, rfl, rfl⟩ := h
  exact ⟨u, hframe, yields_lower_block.mpr ⟨stms, hstms, rfl⟩⟩

end MethodTree

end TreeBackend
