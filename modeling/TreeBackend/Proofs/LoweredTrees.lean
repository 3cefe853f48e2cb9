import TreeBackend.Program.Lowering
import TreeBackend.Proofs.CanonicalForms

/-!
# What lowered trees look like

What lowering makes of a program, form by form, whatever the program means. The
labels that a lowered tree places are all different, and new to the session that
the lowering started in: every label was drawn for one place (`Stmt.draws`).
-/

namespace TreeBackend

open List Program

variable {a b : Session} {stms : List Stm} {op : BinOp}

/-! ## Labels drawn on the way -/

/-- From session `a` to session `b`, the labels `ls` were drawn, all different
and none known before; other labels and temps may have been drawn as well. -/
structure Session.Draws (a b : Session) (ls : List Label) : Prop where
  temps : a.tempCount ≤ b.tempCount
  labels : ∀ l ∈ a.labels, l ∈ b.labels
  drawn : ∀ l ∈ ls, l ∈ b.labels
  fresh : ∀ l ∈ ls, l ∉ a.labels
  nodup : ls.Nodup

namespace Session.Draws

variable {c : Session} {ls ls' : List Label} {l : Label}

theorem refl (a : Session) : a.Draws a [] := ⟨Nat.le_refl _, fun _ h => h, nofun, nofun, nodup_nil⟩

/-- What is drawn later is different from what was drawn before. -/
theorem append (h : a.Draws b ls) (h' : b.Draws c ls') : a.Draws c (ls ++ ls') where
  temps := Nat.le_trans h.temps h'.temps
  labels l hl := h'.labels l (h.labels l hl)
  drawn := by
    rw [forall_mem_append]
    exact ⟨fun l hl => h'.labels l (h.drawn l hl), h'.drawn⟩
  fresh := by
    rw [forall_mem_append]
    exact ⟨h.fresh, fun l hl hmem => h'.fresh l hl (h.labels l hmem)⟩
  nodup := by
    rw [nodup_append]
    refine ⟨h.nodup, h'.nodup, ?_⟩
    rintro l hl l' hl' rfl
    exact h'.fresh l hl' (h.drawn l hl)

theorem perm (h : a.Draws b ls) (hperm : ls.Perm ls') : a.Draws b ls' where
  temps := h.temps
  labels := h.labels
  drawn l hl := h.drawn l (hperm.mem_iff.mpr hl)
  fresh l hl := h.fresh l (hperm.mem_iff.mpr hl)
  nodup := hperm.nodup_iff.mp h.nodup

/-- The labels in another order, told by how often each of them occurs. -/
theorem of_count (h : a.Draws b ls) (hcount : ∀ l, ls.count l = ls'.count l) : a.Draws b ls' :=
  h.perm (perm_iff_count.mpr hcount)

/-- A new temp has the next number, and no label is drawn. -/
theorem newTemp {name : String} {t : Temp} (h : (Session.newTemp name).run a = (t, b)) :
    a.Draws b [] ∧ t = ⟨a.tempCount, .plain name⟩ ∧ b.tempCount = a.tempCount + 1 := by
  obtain ⟨rfl, rfl⟩ := Prod.mk.inj h
  exact ⟨⟨Nat.le_succ _, fun _ h => h, nofun, nofun, nodup_nil⟩, rfl, rfl⟩

/-- A fresh label is drawn, and no temp. -/
theorem freshLabel (h : Session.freshLabel.run a = (l, b)) :
    a.Draws b [l] ∧ b.tempCount = a.tempCount := by
  obtain ⟨l', b', hrun, hfresh, hlabels, htemps, -⟩ := run_freshLabel a
  obtain ⟨rfl, rfl⟩ := Prod.mk.inj (hrun.symm.trans h)
  refine ⟨⟨Nat.le_of_eq htemps.symm, ?_, ?_, ?_, nodup_singleton _⟩, htemps⟩
  · intro l hl
    rw [hlabels]
    exact mem_append_left _ hl
  · rw [hlabels]
    exact fun l hl => mem_append_right _ hl
  · intro l hl
    obtain rfl := mem_singleton.mp hl
    exact hfresh

/-- A label with a name may be known before, so it does not count as drawn. -/
theorem namedLabel {name : String} (h : (Session.namedLabel name).run a = (l, b)) :
    a.Draws b [] ∧ l = ⟨name⟩ ∧ b.tempCount = a.tempCount := by
  rw [Session.run_namedLabel] at h
  obtain ⟨rfl, rfl⟩ := Prod.mk.inj h
  split
  · exact ⟨refl a, rfl, rfl⟩
  · refine ⟨⟨Nat.le_refl _, fun l hl => ?_, nofun, nofun, nodup_nil⟩, rfl, rfl⟩
    rw [Session.labels_withLabel]
    exact mem_append_left _ hl

/-- Three labels for the places that a statement branches to. -/
theorem threeLabels {u v : Session} {l₁ l₂ l₃ : Label} (h₁ : Session.freshLabel.run a = (l₁, u))
    (h₂ : Session.freshLabel.run u = (l₂, v)) (h₃ : Session.freshLabel.run v = (l₃, b)) :
    a.Draws b [l₁, l₂, l₃] ∧ b.tempCount = a.tempCount := by
  obtain ⟨hd₁, ht₁⟩ := freshLabel h₁
  obtain ⟨hd₂, ht₂⟩ := freshLabel h₂
  obtain ⟨hd₃, ht₃⟩ := freshLabel h₃
  exact ⟨hd₁.append (hd₂.append hd₃), by rw [ht₃, ht₂, ht₁]⟩

end Session.Draws

/-! ## Fragments, form by form -/

namespace Fragment

variable {f : Fragment} {e l r : Exp} {stm : Stm} {rel inner : RelOp} {target : Label}

/-- The value of an expression is the expression. -/
theorem of_toExp_exp (h : Yields (exp l).toExp a e b) : e = l ∧ b = a := by
  obtain ⟨rfl, rfl⟩ := yields_pure.mp h
  exact ⟨rfl, rfl⟩

/-- The value of a condition is chosen in a temp, by a branch. -/
theorem of_toExp_cond (h : Yields (cond rel l r).toExp a e b) : ∃ whenTrue whenFalse done,
    a.Draws b [whenTrue, whenFalse, done] ∧ b.tempCount = a.tempCount + 1 ∧ e = .eseq (Stm.seqAll
        [.cjump rel l r whenTrue, .label whenFalse,
          .move (.temp ⟨a.tempCount, .plain "cond"⟩) (.const 0),
          .jump done,
          .label whenTrue,
          .move (.temp ⟨a.tempCount, .plain "cond"⟩) (.const 1),
          .label done]) (.temp ⟨a.tempCount, .plain "cond"⟩) := by
  simp only [toExp, yields_bind, yields_lift, yields_pure] at h
  obtain ⟨t, u, ht, whenTrue, u₁, h₁, whenFalse, u₂, h₂, done, u₃, h₃, rfl, rfl⟩ := h
  obtain ⟨hdraws, rfl, hcount⟩ := Session.Draws.newTemp ht
  obtain ⟨hdraws', hcount'⟩ := Session.Draws.threeLabels h₁ h₂ h₃
  exact ⟨whenTrue, whenFalse, done, hdraws.append hdraws', by rw [hcount', hcount], rfl⟩

/-- A branch on an expression compares it with one. -/
theorem of_toBranch_exp (h : Yields ((exp l).toBranch rel target) a stm b) :
    stm = .cjump rel l (.const 1) target ∧ b = a := by
  obtain ⟨rfl, rfl⟩ := yields_pure.mp h
  exact ⟨rfl, rfl⟩

/-- A comparison branches by itself or by its opposite, or around a jump. -/
theorem of_toBranch_cond (h : Yields ((cond inner l r).toBranch rel target) a stm b) :
    (rel = .eq ∧ stm = .cjump inner l r target ∧ b = a) ∨
    (rel = .neq ∧ inner = .eq ∧ stm = .cjump .neq l r target ∧ b = a) ∨
    (rel = .neq ∧ inner = .neq ∧ stm = .cjump .eq l r target ∧ b = a) ∨
    (rel = .neq ∧ inner = .lt ∧ ∃ skip, a.Draws b [skip] ∧ b.tempCount = a.tempCount ∧
      stm = Stm.seqAll [.cjump .lt l r skip, .jump target, .label skip]) := by
  cases rel with
  | eq =>
    obtain ⟨rfl, rfl⟩ := yields_pure.mp h
    exact .inl ⟨rfl, rfl, rfl⟩
  | neq =>
    cases inner with
    | eq =>
      obtain ⟨rfl, rfl⟩ := yields_pure.mp h
      exact .inr (.inl ⟨rfl, rfl, rfl, rfl⟩)
    | neq =>
      obtain ⟨rfl, rfl⟩ := yields_pure.mp h
      exact .inr (.inr (.inl ⟨rfl, rfl, rfl, rfl⟩))
    | lt =>
      simp only [toBranch, yields_bind, yields_lift, yields_pure] at h
      obtain ⟨skip, u, hskip, rfl, rfl⟩ := h
      obtain ⟨hdraws, hcount⟩ := Session.Draws.freshLabel hskip
      exact .inr (.inr (.inr ⟨rfl, rfl, skip, hdraws, hcount, rfl⟩))
  | lt => exact absurd h not_yields_throw

end Fragment

/-! ## Lowering, constructor by constructor -/

/-- A statement that **branches** to one of two, and goes on from there. -/
abbrev Stm.conditional (branch no yes : Stm) (l₀ l₁ done : Label) : Stm :=
  seqAll [branch, .label l₀, no, .jump done, .label l₁, yes, .jump done, .label done]

/-- A statement that comes back to its test after each **turn**. -/
abbrev Stm.loop (branch turn : Stm) (again body done : Label) : Stm :=
  seqAll [.label again, branch, .jump done, .label body, turn, .jump again, .label done]

namespace Program

/-- The value of what is lowered. -/
def lowerValue (x : CompileM Fragment) : CompileM Exp := do
  let f ← x
  f.toExp

section Steps

variable {s : Scope} {f : Fragment} {x y : CompileM Fragment} {stm : Stm}

/-- A value is lowered to a fragment first. -/
theorem yields_lowerValue {e : Exp} :
    Yields (lowerValue x) a e b ↔ ∃ f u, Yields x a f u ∧ Yields f.toExp u e b := yields_bind

theorem yields_lowerArithmetic :
    Yields (lowerArithmetic op x y) a f b ↔ ∃ l u r, Yields (lowerValue x) a l u ∧
      Yields (lowerValue y) u r b ∧ .exp (.binop op l r) = f := by
  simp only [lowerArithmetic, yields_lowerValue, yields_bind, yields_pure]
  grind

theorem yields_lower_lt :
    Yields (lowerBinary .lt x y) a f b ↔ ∃ l u r, Yields (lowerValue x) a l u ∧
      Yields (lowerValue y) u r b ∧ .cond .lt l r = f := by
  simp only [lowerBinary, yields_lowerValue, yields_bind, yields_pure]
  grind

variable {name : String} {value : Expr}

/-- An `and` and an `or` are two branches and a choice of what they lead to. -/
theorem of_lowerLogical {first : Fragment → Label → Label → CompileM Stm}
    (h : Yields (lowerLogical name x y first) a f b) :
    ∃ whenTrue whenFalse done u fx v fy v' stm₁ v'' stm₂, a.Draws u [whenTrue, whenFalse, done] ∧
      u.tempCount = a.tempCount + 1 ∧ Yields x u fx v ∧ Yields y v fy v' ∧
      Yields (first fx whenTrue whenFalse) v' stm₁ v'' ∧
      Yields (fy.toBranch .neq whenFalse) v'' stm₂ b ∧
      f = .exp (.eseq (Stm.seqAll [stm₁, stm₂, .label whenTrue,
          .move (.temp ⟨a.tempCount, .plain name⟩) (.const 1),
          .jump done,
          .label whenFalse,
          .move (.temp ⟨a.tempCount, .plain name⟩) (.const 0),
          .label done]) (.temp ⟨a.tempCount, .plain name⟩)) := by
  simp only [lowerLogical, yields_bind, yields_lift, yields_pure] at h
  obtain ⟨t, u, ht, whenTrue, u₁, h₁, whenFalse, u₂, h₂, done, u₃, h₃, fx, v, hx, fy, v', hy, stm₁,
    v'', hstm₁, stm₂, b', hstm₂, rfl, rfl⟩ := h
  obtain ⟨hdraws, rfl, hcount⟩ := Session.Draws.newTemp ht
  obtain ⟨hdraws', hcount'⟩ := Session.Draws.threeLabels h₁ h₂ h₃
  exact ⟨whenTrue, whenFalse, done, u₃, fx, v, fy, v', stm₁, v'', stm₂, hdraws.append hdraws',
    by rw [hcount', hcount], hx, hy, hstm₁, hstm₂, rfl⟩

/-- What a name stands for, or the object itself. -/
theorem of_lowerPlace {x : Except Error Exp}
    (h : Yields (do return .exp (← x) : CompileM Fragment) a f b) :
    ∃ e, x = .ok e ∧ f = .exp e ∧ a = b := by
  simp only [yields_bind, yields_liftExcept, yields_pure] at h
  obtain ⟨e, _, ⟨he, rfl⟩, rfl, rfl⟩ := h
  exact ⟨e, he, rfl, rfl⟩

theorem yields_lower_not {e : Expr} :
    Yields ((Expr.not e).lower s) a f b ↔ ∃ t, Yields (lowerValue (e.lower s)) a t b ∧
      .exp (.not t) = f := by
  simp only [Expr.lower, yields_lowerValue, yields_bind, yields_pure]
  grind

theorem yields_lower_index {array position : Expr} :
    Yields ((Expr.index array position).lower s) a f b ↔ ∃ l u r,
      Yields (lowerValue (array.lower s)) a l u ∧ Yields (lowerValue (position.lower s)) u r b ∧
      .exp (s.arrays.element l r) = f := by
  simp only [Expr.lower, yields_lowerValue, yields_bind, yields_pure]
  grind

theorem yields_lower_length {array : Expr} :
    Yields ((Expr.length array).lower s) a f b ↔ ∃ t, Yields (lowerValue (array.lower s)) a t b ∧
      .exp (s.arrays.length t) = f := by
  simp only [Expr.lower, yields_lowerValue, yields_bind, yields_pure]
  grind

/-- A call keeps its receiver in a temp and looks its method up there. -/
theorem of_lower_call {receiver : Expr} {className method : String} {args : List Expr}
    (h : Yields ((Expr.call receiver className method args).lower s) a f b) :
    ∃ t u v c index es, Yields (lowerValue (receiver.lower s)) a t u ∧ u.Draws v [] ∧
      v.tempCount = u.tempCount + 1 ∧ s.table.find className = .ok c ∧
      c.layout.methods.idxOf? method = some index ∧ Yields (Expr.lowerArgs s args) v es b ∧
      f = .exp (.eseq (.move (.temp ⟨u.tempCount, .plain "recv"⟩) t)
        (.call (.mem (.plus (.mem (.temp ⟨u.tempCount, .plain "recv"⟩))
          (.const (c.layout.offset index)))) (.temp ⟨u.tempCount, .plain "recv"⟩ :: es))) := by
  replace h := yields_bind.mp h
  simp only [yields_bind, yields_lift, yields_liftExcept] at h
  obtain ⟨fr, a', hfr, t, u, ht, object, v, hobject, c, v', ⟨hc, rfl⟩, h⟩ := h
  obtain ⟨hdraws, rfl, hcount⟩ := Session.Draws.newTemp hobject
  split at h
  · exact absurd h not_yields_throw
  · next target htarget =>
    simp only [yields_bind, yields_pure] at h
    obtain ⟨es, b', hes, rfl, rfl⟩ := h
    obtain ⟨index, hindex, rfl⟩ := Option.map_eq_some_iff.mp htarget
    exact ⟨t, u, v, c, index, es, yields_lowerValue.mpr ⟨fr, a', hfr, ht⟩, hdraws, hcount, hc,
      hindex, hes, rfl⟩

/-- A new array keeps its length in its first word. -/
theorem of_lower_newArray {size : Expr} (h : Yields ((Expr.newArray size).lower s) a f b) :
    ∃ t u, Yields (lowerValue (size.lower s)) a t u ∧ u.Draws b [] ∧ b.tempCount = u.tempCount + 2 ∧
      f = .exp (.eseq (Stm.seqAll [.move (.temp ⟨u.tempCount, .plain "len"⟩) t,
          .move (.temp ⟨u.tempCount + 1, .plain "arr"⟩) (.call (.name ⟨mallocName⟩)
            [.binop .mul (.plus (.temp ⟨u.tempCount, .plain "len"⟩) (.const 1))
              (.const s.arrays.wordSize)]),
          .move (.mem (.temp ⟨u.tempCount + 1, .plain "arr"⟩)) (.temp ⟨u.tempCount, .plain "len"⟩)])
        (.temp ⟨u.tempCount + 1, .plain "arr"⟩)) := by
  replace h := yields_bind.mp h
  simp only [ArrayLayout.allocate, yields_bind, yields_lift, yields_pure,
    run_bind_eq_iff, run_pure_eq_iff] at h
  obtain ⟨fr, a', hfr, t, u, ht, _, _, ⟨count, u₁, h₁, array, u₂, h₂, malloc, u₃, h₃, rfl, rfl⟩,
    rfl, rfl⟩ := h
  obtain ⟨hdraws₁, rfl, hcount₁⟩ := Session.Draws.newTemp h₁
  obtain ⟨hdraws₂, rfl, hcount₂⟩ := Session.Draws.newTemp h₂
  obtain ⟨hdraws₃, rfl, hcount₃⟩ := Session.Draws.namedLabel h₃
  refine ⟨t, u, yields_lowerValue.mpr ⟨fr, a', hfr, ht⟩, hdraws₁.append (hdraws₂.append hdraws₃),
    by rw [hcount₃, hcount₂, hcount₁], ?_⟩
  rw [hcount₁]

/-- A new object has its table in the first word, and all others cleared. -/
theorem of_lower_newObject {className : String}
    (h : Yields ((Expr.newObject className).lower s) a f b) :
    ∃ c, s.table.find className = .ok c ∧ a.Draws b [] ∧ b.tempCount = a.tempCount + 1 ∧
      f = .exp (.eseq (Stm.seqAll (.move (.temp ⟨a.tempCount, .plain "obj"⟩)
          (.call (.name ⟨mallocName⟩) [.const c.layout.size])
          :: .move (.mem (.temp ⟨a.tempCount, .plain "obj"⟩)) (.name c.layout.vtable)
          :: (List.range c.layout.fields.length).map fun index =>
            .move (.mem (.plus (.temp ⟨a.tempCount, .plain "obj"⟩)
              (.const (c.layout.offset index)))) (.const 0)))
        (.temp ⟨a.tempCount, .plain "obj"⟩)) := by
  replace h := yields_bind.mp h
  simp only [ClassLayout.allocate, yields_bind, yields_lift, yields_liftExcept,
    yields_pure, run_bind_eq_iff, run_pure_eq_iff] at h
  obtain ⟨c, _, ⟨hc, rfl⟩, _, _, ⟨object, u₁, h₁, malloc, u₂, h₂, rfl, rfl⟩, rfl, rfl⟩ := h
  obtain ⟨hdraws₁, rfl, hcount₁⟩ := Session.Draws.newTemp h₁
  obtain ⟨hdraws₂, rfl, hcount₂⟩ := Session.Draws.namedLabel h₂
  exact ⟨c, hc, hdraws₁.append hdraws₂, by rw [hcount₂, hcount₁], rfl⟩

theorem yields_lowerArgs_cons {e : Expr} {es : List Expr} {ts : List Exp} :
    Yields (Expr.lowerArgs s (e :: es)) a ts b ↔ ∃ t u ts', Yields (lowerValue (e.lower s)) a t u ∧
      Yields (Expr.lowerArgs s es) u ts' b ∧ t :: ts' = ts := by
  simp only [Expr.lowerArgs, yields_lowerValue, yields_bind, yields_pure]
  grind

theorem yields_lower_block {body : List Stmt} :
    Yields ((Stmt.block body).lower s) a stm b ↔ ∃ stms, Yields (Stmt.lowerAll s body) a stms b ∧
      Stm.seqAll stms = stm := by
  simp only [Stmt.lower, yields_bind, yields_pure]
  grind

theorem yields_lowerAll_cons {first : Stmt} {rest : List Stmt} :
    Yields (Stmt.lowerAll s (first :: rest)) a stms b ↔ ∃ stm u stms',
      Yields (first.lower s) a stm u ∧ Yields (Stmt.lowerAll s rest) u stms' b ∧
      stm :: stms' = stms := by
  simp only [Stmt.lowerAll, yields_bind, yields_pure]
  grind

/-- A conditional draws three labels, before anything else is lowered. -/
theorem of_lower_ite {condition : Expr} {whenTrue whenFalse : Stmt}
    (h : Yields ((Stmt.ite condition whenTrue whenFalse).lower s) a stm b) :
    ∃ thenLabel elseLabel done u f v branch v' no v'' yes, a.Draws u [thenLabel, elseLabel, done] ∧
      Yields (condition.lower s) u f v ∧ Yields (f.toBranch .eq thenLabel) v branch v' ∧
      Yields (whenFalse.lower s) v' no v'' ∧ Yields (whenTrue.lower s) v'' yes b ∧
      stm = Stm.conditional branch no yes elseLabel thenLabel done := by
  replace h := yields_bind.mp h
  simp only [yields_bind, yields_lift, yields_pure] at h
  obtain ⟨thenLabel, u₁, h₁, elseLabel, u₂, h₂, done, u, h₃, f, v, hf, branch, v', hbranch, no, v'',
    hno, yes, b', hyes, rfl, rfl⟩ := h
  exact ⟨thenLabel, elseLabel, done, u, f, v, branch, v', no, v'', yes,
    (Session.Draws.threeLabels h₁ h₂ h₃).1, hf, hbranch, hno, hyes, rfl⟩

/-- So does a loop. -/
theorem of_lower_while {condition : Expr} {body : Stmt}
    (h : Yields ((Stmt.while condition body).lower s) a stm b) :
    ∃ test bodyLabel done u f v branch v' turn, a.Draws u [test, bodyLabel, done] ∧
      Yields (condition.lower s) u f v ∧ Yields (f.toBranch .eq bodyLabel) v branch v' ∧
      Yields (body.lower s) v' turn b ∧
      stm = Stm.loop branch turn test bodyLabel done := by
  replace h := yields_bind.mp h
  simp only [yields_bind, yields_lift, yields_pure] at h
  obtain ⟨test, u₁, h₁, bodyLabel, u₂, h₂, done, u, h₃, f, v, hf, branch, v', hbranch, turn, b',
    hturn, rfl, rfl⟩ := h
  exact ⟨test, bodyLabel, done, u, f, v, branch, v', turn, (Session.Draws.threeLabels h₁ h₂ h₃).1,
    hf, hbranch, hturn, rfl⟩

/-- Printing is a call of a function of the runtime. -/
theorem of_lower_print (h : Yields ((Stmt.print value).lower s) a stm b) :
    ∃ t u, Yields (lowerValue (value.lower s)) a t u ∧ u.Draws b [] ∧
      stm = .exp (.call (.name ⟨printName⟩) [t]) := by
  replace h := yields_bind.mp h
  simp only [yields_bind, yields_lift, yields_pure] at h
  obtain ⟨f, v, hf, t, u, ht, print, b', hprint, rfl, rfl⟩ := h
  obtain ⟨hdraws, rfl, -⟩ := Session.Draws.namedLabel hprint
  exact ⟨t, u, yields_lowerValue.mpr ⟨f, v, hf, ht⟩, hdraws, rfl⟩

/-- An assignment is a move into what the name stands for. -/
theorem of_lower_assign (h : Yields ((Stmt.assign name value).lower s) a stm b) :
    ∃ dst t, s.lookup name = .ok dst ∧ Yields (lowerValue (value.lower s)) a t b ∧
      stm = .move dst t := by
  replace h := yields_bind.mp h
  simp only [yields_bind, yields_liftExcept, yields_pure] at h
  obtain ⟨dst, _, ⟨hdst, rfl⟩, f, v, hf, t, u, ht, rfl, rfl⟩ := h
  exact ⟨dst, t, hdst, yields_lowerValue.mpr ⟨f, v, hf, ht⟩, rfl⟩

/-- An assignment to an element is a move into the word of the element. -/
theorem of_lower_arrayAssign {position : Expr}
    (h : Yields ((Stmt.arrayAssign name position value).lower s) a stm b) :
    ∃ base t₁ u t₂, s.lookup name = .ok base ∧ Yields (lowerValue (position.lower s)) a t₁ u ∧
      Yields (lowerValue (value.lower s)) u t₂ b ∧ stm = .move (s.arrays.element base t₁) t₂ := by
  replace h := yields_bind.mp h
  simp only [yields_bind, yields_liftExcept, yields_pure] at h
  obtain ⟨base, _, ⟨hbase, rfl⟩, f₁, v₁, hf₁, t₁, u, ht₁, f₂, v₂, hf₂, t₂, b', ht₂, rfl, rfl⟩ := h
  exact ⟨base, t₁, u, t₂, hbase, yields_lowerValue.mpr ⟨f₁, v₁, hf₁, ht₁⟩,
    yields_lowerValue.mpr ⟨f₂, v₂, hf₂, ht₂⟩, rfl⟩

end Steps

end Program

namespace Scope

variable {s : Scope} {name : String} {e : Exp}

/-- The object of a method is one of its variables. -/
theorem of_this (h : s.this = .ok e) : ∃ c access, s.class? = some c ∧
    s.frame.find? ClassTable.thisName = some access ∧ e = access.toExp := by
  unfold this at h
  split at h
  · next c access hc haccess =>
    obtain rfl := Except.ok.inj h
    exact ⟨c, access, hc, haccess, rfl⟩
  · cases h

/-- **A name is a variable**, or else a field of the object. -/
theorem of_lookup (h : s.lookup name = .ok e) :
    (∃ access, s.frame.find? name = some access ∧ e = access.toExp) ∨
    ∃ c index object, s.frame.find? name = none ∧ s.class? = some c ∧
      c.layout.fieldIndex? name = some index ∧ s.this = .ok object ∧
      e = .mem (.plus object (.const (c.layout.offset index))) := by
  unfold lookup at h
  split at h
  · next access haccess =>
    obtain rfl := Except.ok.inj h
    exact .inl ⟨access, haccess, rfl⟩
  · next hnone =>
    split at h
    · cases h
    · next c hc =>
      obtain ⟨object, hthis, h⟩ := bind_eq_ok_iff.mp h
      split at h
      · next field hfield =>
        obtain ⟨index, hindex, rfl⟩ := Option.map_eq_some_iff.mp hfield
        obtain rfl := Except.ok.inj h
        exact .inr ⟨c, index, object, hnone, hc, hindex, hthis, rfl⟩
      · cases h

end Scope

/-! ## Labels that are placed -/

/-- The labels that the fragment places. -/
def Fragment.labels : Fragment → List Label
  | exp e => e.labels
  | stm s => s.labels
  | cond _ l r => l.labels ++ r.labels

namespace Fragment

variable {c : Session} {f : Fragment} {rel : RelOp} {target : Label} {stm : Stm} {e : Exp}

/-- The value of a fragment places the labels of the fragment, and new ones. -/
theorem draws_toExp (h : a.Draws b f.labels) (he : Yields f.toExp b e c) : a.Draws c e.labels := by
  cases f with
  | exp l =>
    obtain ⟨rfl, rfl⟩ := of_toExp_exp he
    exact h
  | stm s => exact absurd he not_yields_throw
  | cond rel l r =>
    obtain ⟨whenTrue, whenFalse, done, hdraws, -, rfl⟩ := of_toExp_cond he
    refine (h.append hdraws).of_count fun x => ?_
    simp [labels, Stm.labels_seqAll, count_append, count_cons]
    omega

/-- The labels of a branch are those of the fragment, and maybe a new one. -/
theorem labels_toBranch (hstm : Yields (f.toBranch rel target) a stm b) :
    ∃ ls, a.Draws b ls ∧ ∀ x, stm.labels.count x = (f.labels ++ ls).count x := by
  cases f with
  | exp l =>
    obtain ⟨rfl, rfl⟩ := of_toBranch_exp hstm
    exact ⟨[], .refl _, by simp [labels]⟩
  | stm s => exact absurd hstm not_yields_throw
  | cond inner l r =>
    obtain ⟨-, rfl, rfl⟩ | ⟨-, -, rfl, rfl⟩ | ⟨-, -, rfl, rfl⟩ | ⟨-, -, skip, hdraws, -, rfl⟩ :=
      of_toBranch_cond hstm
    · exact ⟨[], .refl _, by simp [labels]⟩
    · exact ⟨[], .refl _, by simp [labels]⟩
    · exact ⟨[], .refl _, by simp [labels]⟩
    · exact ⟨[skip], hdraws, by simp [labels, Stm.labels_seqAll]⟩

/-- A branch gives no temps back. -/
theorem le_of_toBranch (hstm : Yields (f.toBranch rel target) a stm b) :
    a.tempCount ≤ b.tempCount := by
  obtain ⟨ls, hdraws, -⟩ := labels_toBranch hstm
  exact hdraws.temps

end Fragment

namespace Program

/-- What is lowered by `x` places labels that are drawn on the way. -/
def LowersOnce (x : CompileM Fragment) : Prop :=
  ∀ ⦃a b : Session⦄ ⦃f : Fragment⦄, Yields x a f b → a.Draws b f.labels

namespace LowersOnce

variable {x y : CompileM Fragment}

/-- The labels of a value were drawn for it. -/
theorem value {e : Exp} (hx : LowersOnce x) (h : Yields (lowerValue x) a e b) :
    a.Draws b e.labels := by
  obtain ⟨f, u, hf, he⟩ := yields_lowerValue.mp h
  exact Fragment.draws_toExp (hx hf) he

/-- Two operands, one lowered after the other. -/
theorem pair (hx : LowersOnce x) (hy : LowersOnce y) {u : Session} {l r : Exp}
    (hl : Yields (lowerValue x) a l u) (hr : Yields (lowerValue y) u r b) :
    a.Draws b (l.labels ++ r.labels) :=
  (hx.value hl).append (hy.value hr)

theorem arithmetic (hx : LowersOnce x) (hy : LowersOnce y) :
    LowersOnce (lowerArithmetic op x y) := by
  intro a b f h
  obtain ⟨l, u, r, hl, hr, rfl⟩ := yields_lowerArithmetic.mp h
  rw [Fragment.labels, Exp.labels_binop]
  exact hx.pair hy hl hr

/-- The labels of both branches, and of the choice after them. -/
theorem logical (hx : LowersOnce x) (hy : LowersOnce y) (name : String) (rel : RelOp)
    (pick : Label → Label → Label) :
    LowersOnce (lowerLogical name x y fun f whenTrue whenFalse =>
      f.toBranch rel (pick whenTrue whenFalse)) := by
  intro a b f h
  obtain ⟨whenTrue, whenFalse, done, u, fx, v, fy, v', stm₁, v'', stm₂, hdraws, -, hfx, hfy, hstm₁,
    hstm₂, rfl⟩ := of_lowerLogical h
  obtain ⟨ls₁, hdraws₁, hcount₁⟩ := Fragment.labels_toBranch hstm₁
  obtain ⟨ls₂, hdraws₂, hcount₂⟩ := Fragment.labels_toBranch hstm₂
  refine (hdraws.append ((hx hfx).append ((hy hfy).append (hdraws₁.append hdraws₂)))).of_count
    fun l => ?_
  simp [Fragment.labels, Stm.labels_seqAll, count_append, count_cons, hcount₁, hcount₂]
  omega

theorem binary (hx : LowersOnce x) (hy : LowersOnce y) (op : Operator) :
    LowersOnce (lowerBinary op x y) := by
  cases op with
  | add | sub | mul | mod => exact hx.arithmetic hy
  | lt =>
    intro a b f h
    obtain ⟨l, u, r, hl, hr, rfl⟩ := yields_lower_lt.mp h
    exact hx.pair hy hl hr
  | and => exact hx.logical hy _ _ fun _ whenFalse => whenFalse
  | or => exact hx.logical hy _ _ fun whenTrue _ => whenTrue

end LowersOnce

end Program

/-- A variable is read without effects. -/
theorem Access.isPure_toExp (access : Access) : access.toExp.isPure = true := by
  cases access <;> rfl

/-- So is whatever a name stands for. -/
theorem Scope.isPure_of_lookup {s : Scope} {name : String} {e : Exp} (h : s.lookup name = .ok e) :
    e.isPure = true := by
  obtain ⟨access, -, rfl⟩ | ⟨c, index, object, -, -, -, hthis, rfl⟩ := of_lookup h
  · exact access.isPure_toExp
  · obtain ⟨-, access, -, -, rfl⟩ := of_this hthis
    rw [Exp.isPure, Exp.isPure, access.isPure_toExp]
    rfl

/-- The element of an array places the labels of the array and of the index. -/
theorem ArrayLayout.labels_element (arrays : ArrayLayout) (base index : Exp) :
    (arrays.element base index).labels = base.labels ++ index.labels := by
  have hoffset : (arrays.elementOffset index).labels = index.labels := by
    unfold elementOffset
    split
    · split <;> rfl
    · simp
  rw [element, Exp.labels_mem, Exp.labels_binop, hoffset]

namespace Program

mutual

/-- **Lowered expressions** place every label they draw once. -/
theorem Expr.draws (s : Scope) (e : Expr) : LowersOnce (e.lower s) := by
  intro a b f h
  cases e with
  | int | bool =>
    obtain ⟨rfl, rfl⟩ := yields_pure.mp h
    exact .refl _
  | ident name =>
    obtain ⟨e, he, rfl, rfl⟩ := of_lowerPlace h
    rw [Fragment.labels, Exp.labels_of_isPure (Scope.isPure_of_lookup he)]
    exact .refl a
  | this =>
    obtain ⟨e, he, rfl, rfl⟩ := of_lowerPlace h
    obtain ⟨-, access, -, -, rfl⟩ := Scope.of_this he
    rw [Fragment.labels, Exp.labels_of_isPure access.isPure_toExp]
    exact .refl a
  | binary op l r => exact (l.draws s).binary (r.draws s) op h
  | not e =>
    obtain ⟨t, ht, rfl⟩ := yields_lower_not.mp h
    have hdraws := (e.draws s).value ht
    exact hdraws
  | index array position =>
    obtain ⟨l, u, r, hl, hr, rfl⟩ := yields_lower_index.mp h
    rw [Fragment.labels, s.arrays.labels_element]
    exact (array.draws s).pair (position.draws s) hl hr
  | length array =>
    obtain ⟨t, ht, rfl⟩ := yields_lower_length.mp h
    have hdraws := (array.draws s).value ht
    exact hdraws
  | call receiver className method args =>
    obtain ⟨t, u, v, c, index, es, ht, hdraws, -, -, -, hes, rfl⟩ := of_lower_call h
    refine (((receiver.draws s).value ht).append
      (hdraws.append (Expr.allDraws s args hes))).of_count fun l => ?_
    simp [Fragment.labels]
  | newArray size =>
    obtain ⟨t, u, ht, hdraws, -, rfl⟩ := of_lower_newArray h
    refine (((size.draws s).value ht).append hdraws).of_count fun l => ?_
    simp [Fragment.labels, Stm.labels_seqAll]
  | newObject className =>
    obtain ⟨c, -, hdraws, -, rfl⟩ := of_lower_newObject h
    rw [Fragment.labels, Exp.labels_eseq, Stm.labels_seqAll, Exp.labels_temp, append_nil,
      flatMap_eq_nil_iff.mpr (by simp)]
    exact hdraws

/-- The arguments of a call draw labels one after the other. -/
theorem Expr.allDraws (s : Scope) (es : List Expr) {a b : Session} {ts : List Exp}
    (h : Yields (Expr.lowerArgs s es) a ts b) : a.Draws b (Exp.labelsAll ts) := by
  cases es with
  | nil =>
    obtain ⟨rfl, rfl⟩ := yields_pure.mp h
    exact .refl _
  | cons e es =>
    obtain ⟨t, u, ts', ht, hts, rfl⟩ := yields_lowerArgs_cons.mp h
    rw [Exp.labelsAll_cons]
    exact ((e.draws s).value ht).append (Expr.allDraws s es hts)

end

mutual

/-- **Lowered statements** place every label they draw once. -/
theorem Stmt.draws (s : Scope) (stmt : Stmt) {a b : Session} {stm : Stm}
    (h : Yields (stmt.lower s) a stm b) : a.Draws b stm.labels := by
  cases stmt with
  | block body =>
    obtain ⟨stms, hstms, rfl⟩ := yields_lower_block.mp h
    rw [Stm.labels_seqAll]
    exact Stmt.allDraws s body hstms
  | ite condition whenTrue whenFalse =>
    obtain ⟨thenLabel, elseLabel, done, u, f, v, branch, v', no, v'', yes, hdraws, hf, hbranch, hno,
      hyes, rfl⟩ := of_lower_ite h
    obtain ⟨ls, hdraws', hcount⟩ := Fragment.labels_toBranch hbranch
    rw [Stm.labels_seqAll]
    refine (hdraws.append ((condition.draws s hf).append (hdraws'.append
      ((whenFalse.draws s hno).append (whenTrue.draws s hyes))))).of_count fun l => ?_
    simp [count_append, count_cons, hcount]
    omega
  | «while» condition body =>
    obtain ⟨test, bodyLabel, done, u, f, v, branch, v', turn, hdraws, hf, hbranch, hturn, rfl⟩ :=
      of_lower_while h
    obtain ⟨ls, hdraws', hcount⟩ := Fragment.labels_toBranch hbranch
    rw [Stm.labels_seqAll]
    refine (hdraws.append ((condition.draws s hf).append (hdraws'.append
      (body.draws s hturn)))).of_count fun l => ?_
    simp [count_append, count_cons, hcount]
    omega
  | print value =>
    obtain ⟨t, u, ht, hdraws, rfl⟩ := of_lower_print h
    exact (((value.draws s).value ht).append hdraws).of_count fun l => by simp
  | assign name value =>
    obtain ⟨dst, t, hdst, ht, rfl⟩ := of_lower_assign h
    rw [Stm.labels_move, Exp.labels_of_isPure (Scope.isPure_of_lookup hdst)]
    exact (value.draws s).value ht
  | arrayAssign name position value =>
    obtain ⟨base, t₁, u, t₂, hbase, ht₁, ht₂, rfl⟩ := of_lower_arrayAssign h
    rw [Stm.labels_move, s.arrays.labels_element,
      Exp.labels_of_isPure (Scope.isPure_of_lookup hbase)]
    exact (position.draws s).pair (value.draws s) ht₁ ht₂

/-- The statements of a block draw labels one after the other. -/
theorem Stmt.allDraws (s : Scope) (body : List Stmt) {a b : Session} {stms : List Stm}
    (h : Yields (Stmt.lowerAll s body) a stms b) : a.Draws b (stms.flatMap Stm.labels) := by
  cases body with
  | nil =>
    obtain ⟨rfl, rfl⟩ := yields_pure.mp h
    exact .refl _
  | cons first rest =>
    obtain ⟨stm, u, stms', hstm, hstms, rfl⟩ := yields_lowerAll_cons.mp h
    exact (first.draws s hstm).append (Stmt.allDraws s rest hstms)

end

end Program

end TreeBackend
