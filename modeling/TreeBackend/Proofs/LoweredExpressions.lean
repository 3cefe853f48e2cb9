import TreeBackend.Proofs.LoweredTrees
import TreeBackend.Proofs.ProgramSemantics
import TreeBackend.Proofs.TreeSequences

/-!
# What lowered expressions mean

The tree of an expression carries out the action that the expression stands for
(`Expr.lowers`). A comparison that is still undecided comes to 0 or 1 as a value,
and branches either way as a condition; `&&` and `||` are decided by one or two
branches; the receiver of a call, a new object and a new array are kept in temps
of their own, which nothing else writes.
-/

namespace TreeBackend

open List Program World

variable {access : Access} {t : Temp} {object : BitVec 64} {e : Exp}

section Fragments

variable {M : Type} (env : Surroundings M) (known : (Temp → BitVec 64) → Prop)

/-- The fragment **means** the action. A comparison means 1 if it holds, and 0
if it does not; a statement means nothing. -/
def Fragment.Means (lo hi : Nat) (m : Action (BitVec 64) M (BitVec 64)) : Fragment → Prop
  | exp e => e.Means env.host known lo hi m
  | stm _ => False
  | cond rel l r => ∃ mid m₁ m₂, l.Means env.host known lo mid m₁ ∧
      r.Means env.host known mid hi m₂ ∧
      m = do return Word.ofTruth (Surroundings.relation rel (← m₁) (← m₂))

/-- What is lowered **means** the action, in every session in which `lo` numbers
or more have been drawn. -/
def Program.Lowers (lo : Nat) (x : CompileM Fragment) (m : Action (BitVec 64) M (BitVec 64)) :
    Prop :=
  ∀ ⦃a b : Session⦄ ⦃f : Fragment⦄, Yields x a f b → lo ≤ a.tempCount →
    f.Means env known a.tempCount b.tempCount m

end Fragments

/-! ## Values and branches of fragments -/

theorem Surroundings.const_truth {M : Type} (env : Surroundings M) (b : Bool) :
    env.host.const (if b then 1 else 0) = Word.ofTruth b := by
  cases b <;> rfl

theorem Word.relation_eq_one (b : Bool) : Surroundings.relation .eq (ofTruth b) 1 = b := by
  cases b <;> rfl

theorem Word.relation_neq_one (b : Bool) : Surroundings.relation .neq (ofTruth b) 1 = !b := by
  cases b <;> rfl

theorem Word.not_ofTruth (b : Bool) : ofTruth b ^^^ 1#64 = ofTruth !b := by cases b <;> rfl

theorem Word.ofTruth_inj {b c : Bool} : ofTruth b = ofTruth c ↔ b = c := by
  cases b <;> cases c <;> decide

namespace Fragment.Means

variable {M : Type} {env : Surroundings M} {known : (Temp → BitVec 64) → Prop} {lo hi : Nat}
  {m : Action (BitVec 64) M (BitVec 64)} {f : Fragment} {a b : Session}

theorem le (h : f.Means env known lo hi m) : lo ≤ hi := by
  cases f with
  | exp e => exact Exp.Means.le h
  | stm s => exact h.elim
  | cond rel l r =>
    obtain ⟨mid, m₁, m₂, hl, hr, -⟩ := h
    exact Nat.le_trans hl.le hr.le

/-- **The value of a fragment** is what the fragment means. -/
theorem toExp (h : f.Means env known lo a.tempCount m) (hstable : Stable known lo)
    (he : Yields f.toExp a e b) : e.Means env.host known lo b.tempCount m := by
  have hle := h.le
  cases f with
  | exp l =>
    obtain ⟨rfl, rfl⟩ := of_toExp_exp he
    exact h
  | stm s => exact h.elim
  | cond rel l r =>
    obtain ⟨mid, m₁, m₂, hl, hr, rfl⟩ := h
    obtain ⟨whenTrue, whenFalse, done, -, hcount, rfl⟩ := of_toExp_cond he
    have hsets := ((hl.branches hr hstable rel whenTrue).decides whenFalse).sets (Nat.le_refl lo)
      (Nat.le_succ _) hle (Nat.lt_succ_self a.tempCount) "cond" 0 1 done
    rw [hcount]
    refine (Exp.Means.eseq_temp hsets (fun _ => Nat.lt_succ_self a.tempCount) hstable).imp ?_
    intro o v o' hgives
    simp only [gives_bind, gives_pure] at hgives ⊢
    obtain ⟨x, o₁, hm₁, y, o₂, hm₂, rfl, rfl⟩ := hgives
    exact ⟨_, o₂, ⟨x, o₁, hm₁, y, o₂, hm₂, rfl, rfl⟩, env.const_truth _, rfl⟩

/-- **A branch on a fragment** goes to its target if the fragment is true. -/
theorem branches_eq {stm : Stm} {target : Label} (h : f.Means env known lo hi m)
    (hstable : Stable known lo) (hstm : Yields (f.toBranch .eq target) a stm b) :
    stm.Branches env.host known lo hi target m.truth := by
  cases f with
  | exp l =>
    obtain ⟨rfl, rfl⟩ := of_toBranch_exp hstm
    refine (Exp.Means.branches h (.const hi 1) hstable .eq target).imp ?_
    intro o v o' hgives
    simp only [gives_bind, gives_pure]
    exact ⟨_, o', gives_truth.mp hgives, _, o', ⟨rfl, rfl⟩, Word.relation_eq_one v, rfl⟩
  | stm s => exact h.elim
  | cond inner l r =>
    obtain ⟨mid, m₁, m₂, hl, hr, rfl⟩ := h
    obtain ⟨-, rfl, -⟩ | ⟨⟨⟩, -⟩ | ⟨⟨⟩, -⟩ | ⟨⟨⟩, -⟩ := of_toBranch_cond hstm
    refine (hl.branches hr hstable inner target).imp ?_
    intro o v o' hgives
    simp only [gives_truth, gives_bind, gives_pure, Word.ofTruth_inj] at hgives ⊢
    exact hgives

/-- **The opposite branch** goes to its target if the fragment is false. -/
theorem branches_neq {stm : Stm} {target : Label} (h : f.Means env known lo hi m)
    (hstable : Stable known lo) (hstm : Yields (f.toBranch .neq target) a stm b) :
    stm.Branches env.host known lo hi target (do return !(← m.truth)) := by
  cases f with
  | exp l =>
    obtain ⟨rfl, rfl⟩ := of_toBranch_exp hstm
    refine (Exp.Means.branches h (.const hi 1) hstable .neq target).imp ?_
    intro o v o' hgives
    simp only [gives_bind, gives_pure] at hgives ⊢
    obtain ⟨x, o₁, hm, rfl, rfl⟩ := hgives
    exact ⟨_, o₁, gives_truth.mp hm, _, o₁, ⟨rfl, rfl⟩, Word.relation_neq_one x, rfl⟩
  | stm s => exact h.elim
  | cond inner l r =>
    obtain ⟨mid, m₁, m₂, hl, hr, rfl⟩ := h
    have himp : ∀ {rel : RelOp}, (∀ x y, Surroundings.relation rel x y =
        !Surroundings.relation inner x y) → (Stm.cjump rel l r target).Branches env.host known lo hi
        target (do return !(← Action.truth (do
          return Word.ofTruth (Surroundings.relation inner (← m₁) (← m₂))))) := by
      intro rel hrel
      refine (hl.branches hr hstable rel target).imp ?_
      intro o v o' hgives
      simp only [gives_truth, gives_bind, gives_pure, Word.ofTruth_inj] at hgives ⊢
      obtain ⟨x, o₁, ⟨y, o₂, hm₁, z, o₃, hm₂, rfl, rfl⟩, rfl, rfl⟩ := hgives
      exact ⟨y, o₂, hm₁, z, o₃, hm₂, hrel y z, rfl⟩
    obtain ⟨⟨⟩, -⟩ | ⟨-, rfl, rfl, -⟩ | ⟨-, rfl, rfl, -⟩ | ⟨-, rfl, skip, -, -, rfl⟩ :=
      of_toBranch_cond hstm
    · exact himp fun _ _ => rfl
    · exact himp fun x y => (Bool.not_not _).symm
    · refine ((hl.branches hr hstable .lt skip).around target).imp ?_
      intro o v o' hgives
      simp only [gives_truth, gives_bind, gives_pure, Word.ofTruth_inj] at hgives ⊢
      exact hgives

end Fragment.Means

/-! ## Operators -/

namespace Program

variable {M : Type} {env : Surroundings M} {known : (Temp → BitVec 64) → Prop} {lo : Nat}
  {x y : CompileM Fragment} {mx my : Action (BitVec 64) M (BitVec 64)} {a b : Session}

/-- The value of what is lowered. -/
theorem Lowers.value (hx : Lowers env known lo x mx) (hstable : Stable known lo)
    (hle : lo ≤ a.tempCount) {t : Exp} (ht : Yields (lowerValue x) a t b) :
    t.Means env.host known a.tempCount b.tempCount mx := by
  obtain ⟨f, u, hf, ht⟩ := yields_lowerValue.mp ht
  exact (hx hf hle).toExp (hstable.mono hle) ht

theorem lowerArithmetic_lowers (hx : Lowers env known lo x mx) (hy : Lowers env known lo y my)
    (hstable : Stable known lo) (op : BinOp) :
    Lowers env known lo (lowerArithmetic op x y) (do return env.operator op (← mx) (← my)) := by
  intro a b f hf hle
  obtain ⟨l, u, r, hl, hr, rfl⟩ := yields_lowerArithmetic.mp hf
  have hl' := hx.value hstable hle hl
  have hr' := hy.value hstable (Nat.le_trans hle hl'.le) hr
  exact hl'.binop hr' (hstable.mono hle) op

/-- **Two conditions decide.** The first one is enough if it goes to the label
for what is `decided`. -/
theorem lowerLogical_lowers (hx : Lowers env known lo x mx) (hy : Lowers env known lo y my)
    (hstable : Stable known lo) {name : String} {rel : RelOp} (pick : Label → Label → Label)
    (decided : Bool) {m₁ : Action (BitVec 64) M Bool}
    (hpick : ∀ whenTrue whenFalse,
      pick whenTrue whenFalse = if decided then whenTrue else whenFalse)
    (hfirst : ∀ {f : Fragment} {lo' hi target a stm b}, f.Means env known lo' hi mx →
      Stable known lo' → Yields (f.toBranch rel target) a stm b →
      stm.Branches env.host known lo' hi target m₁) :
    Lowers env known lo (lowerLogical name x y fun f whenTrue whenFalse =>
      f.toBranch rel (pick whenTrue whenFalse)) (do
        if ← m₁ then
          return Word.ofTruth decided
        else
          return Word.ofTruth (← my.truth)) := by
  intro a b f hf hle
  obtain ⟨whenTrue, whenFalse, done, u, fx, v, fy, v', stm₁, v'', stm₂, -, hcount, hfx, hfy, hstm₁,
    hstm₂, rfl⟩ := of_lowerLogical hf
  have hleu : lo ≤ u.tempCount := by omega
  have hx' := hx hfx hleu
  have hy' := hy hfy (Nat.le_trans hleu hx'.le)
  have hstable' := hstable.mono hleu
  have hfirst' : stm₁.Branches env.host known u.tempCount v.tempCount
      (if !decided then whenFalse else whenTrue) m₁ := by
    have := hfirst hx' hstable' hstm₁
    rw [hpick] at this
    cases decided
    · exact this
    · exact this
  have hdecides := hfirst'.decides_pair (!decided) (hy'.branches_neq (hstable'.mono hx'.le) hstm₂)
    hstable'
  have hend : v'.tempCount ≤ b.tempCount :=
    Nat.le_trans (Fragment.le_of_toBranch hstm₁) (Fragment.le_of_toBranch hstm₂)
  have hlt : a.tempCount < b.tempCount := by
    have := hx'.le
    have := hy'.le
    omega
  have hlea : a.tempCount ≤ u.tempCount := by omega
  have hsets := hdecides.sets hlea hend (Nat.le_refl _) hlt name 1 0 done
  refine (Exp.Means.eseq_temp hsets (fun _ => hlt) (hstable.mono hle)).imp ?_
  intro o z o' hgives
  obtain ⟨v₁, o₁, hm₁, hrest⟩ := gives_bind.mp hgives
  simp only [gives_bind, gives_pure]
  -- the second condition is asked only where the first one does not decide
  cases v₁ with
  | true =>
    obtain ⟨rfl, rfl⟩ := gives_pure.mp hrest
    refine ⟨_, o₁, ⟨true, o₁, hm₁, gives_pure.mpr ⟨rfl, rfl⟩⟩, ?_, rfl⟩
    cases decided <;> rfl
  | false =>
    simp only [Bool.false_eq_true, if_false, gives_bind, gives_pure] at hrest
    obtain ⟨v₂, o₂, hm₂, rfl, rfl⟩ := hrest
    refine ⟨!v₂, o₂, ⟨false, o₁, hm₁, ?_⟩, ?_, rfl⟩
    · simp only [Bool.false_eq_true, if_false, gives_bind, gives_pure]
      exact ⟨v₂, o₂, hm₂, rfl, rfl⟩
    · cases v₂ <;> rfl

/-- **Operators** mean what they stand for. -/
theorem lowerBinary_lowers (hx : Lowers env known lo x mx) (hy : Lowers env known lo y my)
    (hstable : Stable known lo) (op : Operator) :
    Lowers env known lo (lowerBinary op x y) (op.apply env mx my) := by
  cases op with
  | add => exact lowerArithmetic_lowers hx hy hstable .plus
  | sub => exact lowerArithmetic_lowers hx hy hstable .minus
  | mul => exact lowerArithmetic_lowers hx hy hstable .mul
  | mod => exact lowerArithmetic_lowers hx hy hstable .mod
  | lt =>
    intro a b f hf hle
    obtain ⟨l, u, r, hl, hr, rfl⟩ := yields_lower_lt.mp hf
    have hl' := hx.value hstable hle hl
    have hr' := hy.value hstable (Nat.le_trans hle hl'.le) hr
    exact ⟨u.tempCount, mx, my, hl', hr', rfl⟩
  | and =>
    have heq : Operator.apply env .and mx my = (do
        if ← (do return !(← mx.truth)) then
          return Word.ofTruth false
        else
          return Word.ofTruth (← my.truth)) := by
      rw [Operator.apply, bind_assoc]
      refine bind_congr fun b => ?_
      cases b <;> rfl
    rw [heq]
    exact lowerLogical_lowers hx hy hstable (fun _ whenFalse => whenFalse) false (fun _ _ => rfl)
      Fragment.Means.branches_neq
  | or =>
    exact lowerLogical_lowers hx hy hstable (fun whenTrue _ => whenTrue) true (fun _ _ => rfl)
      Fragment.Means.branches_eq

end Program

/-! ## Variables -/

/-- The temps that hold what a method works with: the frame pointer, and the
formals that travel in registers. -/
def Scope.Reads (s : Scope) (t : Temp) : Prop := t = .framePointer ∨ t ∈ s.frame.registerFormals

/-- Those temps have numbers below `lo`. -/
def Scope.Under (s : Scope) (lo : Nat) : Prop := ∀ t, s.Reads t → ∀ n, t.Under ⟨lo, n⟩

/-- What is known includes the content of the registers that the method works
with, and depends on temps with numbers below `lo` only. -/
structure Scope.Knows (s : Scope) (regs : Temp → BitVec 64) (known : (Temp → BitVec 64) → Prop)
    (lo : Nat) : Prop where
  holds : ∀ f, known f → ∀ t, s.Reads t → f t = regs t
  stable : Stable known lo
  under : s.Under lo

theorem Scope.Under.mono {s : Scope} {lo lo' : Nat} (h : s.Under lo) (hle : lo ≤ lo') :
    s.Under lo' := fun t ht n => (h t ht n).mono ⟨hle, Nat.le_refl _⟩

theorem Frame.mem_placements {frame : Frame} {name : String} (h : frame.find? name = some access) :
    (name, access) ∈ frame.placements := by
  obtain ⟨l₁, l₂, heq, -⟩ := lookup_eq_some_iff.mp h
  rw [heq]
  exact mem_append_right _ mem_cons_self

theorem Frame.mem_registerFormals {frame : Frame} {name : String}
    (h : frame.find? name = some (.register t)) : t ∈ frame.registerFormals := by
  obtain hlocal | hformal := mem_append.mp (mem_placements h)
  · obtain ⟨l, -, heq⟩ := mem_map.mp hlocal
    cases heq
  · exact mem_filterMap.mpr ⟨_, hformal, rfl⟩

section Places

variable {M : Type} {env : Surroundings M} {s : Scope} {regs : Temp → BitVec 64} {name : String}

theorem Scope.locate_of_find? (h : s.frame.find? name = some access) :
    s.locate env regs name = pure (access.place regs) := by
  rw [locate, h]

/-- The place of a field is found from the receiver. -/
theorem Scope.gives_locate_field {c : ClassInfo} {index : Nat} {place : Place}
    {o o' : Outside (BitVec 64) M} (hnone : s.frame.find? name = none) (hc : s.class? = some c)
    (hindex : c.layout.fieldIndex? name = some index) :
    Gives (s.locate env regs name) o place o' ↔ ∃ x, Gives (s.receiver env regs) o x o' ∧
      place = .word (x + (c.layout.offset index).toBitVec) := by
  simp only [locate, hnone, gives_bind, gives_lift, gives_pure]
  constructor
  · rintro ⟨c', _, ⟨hc', rfl⟩, x, o₁, hreceiver, i, _, ⟨hi, rfl⟩, rfl, rfl⟩
    obtain rfl := Option.some.inj (hc.symm.trans hc')
    obtain rfl := Option.some.inj (hindex.symm.trans hi)
    exact ⟨x, hreceiver, rfl⟩
  · rintro ⟨x, hreceiver, rfl⟩
    exact ⟨c, _, ⟨hc, rfl⟩, x, o', hreceiver, index, _, ⟨hindex, rfl⟩, rfl, rfl⟩

end Places

namespace Scope.Knows

variable {M : Type} {env : Surroundings M} {s : Scope} {regs : Temp → BitVec 64}
  {known : (Temp → BitVec 64) → Prop} {lo : Nat} {name : String}

theorem mono {lo' : Nat} (h : s.Knows regs known lo) (hle : lo ≤ lo') : s.Knows regs known lo' where
  holds := h.holds
  stable := h.stable.mono hle
  under := h.under.mono hle

/-- A new temp may be known as well. -/
theorem and_eq {t : Temp} (h : s.Knows regs known lo) (ht : ∀ n, t.Under ⟨lo, n⟩) (v : BitVec 64) :
    s.Knows regs (fun f => known f ∧ f t = v) lo where
  holds f hf := h.holds f hf.1
  stable := h.stable.and_eq ht v
  under := h.under

/-- The word at an offset from the frame pointer. -/
theorem frame_means (h : s.Knows regs known lo) (env : Surroundings M) (offset : Int64) :
    (Exp.plus (.temp .framePointer) (.const offset)).Means env.host known lo lo
      (pure (regs .framePointer + offset.toBitVec)) := by
  have hfp : (Exp.temp .framePointer).Means env.host known lo lo (pure (regs .framePointer)) :=
    .temp (h.under _ (.inl rfl)) fun f hf => h.holds f hf _ (.inl rfl)
  exact hfp.binop (.const lo offset) h.stable .plus

/-- A variable of the frame is read where it is kept. -/
theorem access_means (h : s.Knows regs known lo) (haccess : s.frame.find? name = some access) :
    access.toExp.Means env.host known lo lo ((access.place regs).read env regs) := by
  cases access with
  | register t =>
    have hreads : s.Reads t := .inr (Frame.mem_registerFormals haccess)
    exact .temp (h.under t hreads) fun f hf => h.holds f hf t hreads
  | frame offset =>
    have := (h.frame_means env offset).read
    rwa [pure_bind] at this

theorem this_means (h : s.Knows regs known lo) (env : Surroundings M) (he : s.this = .ok e) :
    e.Means env.host known lo lo (s.receiver env regs) := by
  obtain ⟨c, access, hc, haccess, rfl⟩ := of_this he
  have hreceiver : s.receiver env regs = (access.place regs).read env regs := by
    rw [receiver, hc, haccess]
  rw [hreceiver]
  exact h.access_means haccess

/-- The address of a field. -/
theorem field_means (h : s.Knows regs known lo) {object : Exp} (hobject : s.this = .ok object)
    (offset : Int64) : (Exp.plus object (.const offset)).Means env.host known lo lo
      (do return (← s.receiver env regs) + offset.toBitVec) :=
  (h.this_means env hobject).binop (.const lo offset) h.stable .plus

/-- **A variable** of the frame, or a field, is read where it is kept. -/
theorem lookup_means (h : s.Knows regs known lo) (he : s.lookup name = .ok e) :
    e.Means env.host known lo lo (s.valueOf env regs name) := by
  obtain ⟨access, haccess, rfl⟩ | ⟨c, index, object, hnone, hc, hindex, hthis, rfl⟩ := of_lookup he
  · have hvalue : s.valueOf env regs name = (access.place regs).read env regs := by
      rw [valueOf, locate_of_find? haccess, pure_bind]
    rw [hvalue]
    exact h.access_means haccess
  · refine (h.field_means hthis _).read.imp ?_
    intro o v o' hgives
    obtain ⟨place, o₁, hlocate, hload⟩ := gives_bind.mp hgives
    obtain ⟨x, hreceiver, rfl⟩ := (gives_locate_field hnone hc hindex).mp hlocate
    simp only [gives_bind, gives_pure]
    exact ⟨_, o₁, ⟨x, o₁, hreceiver, rfl, rfl⟩, hload⟩

end Scope.Knows

/-! ## Elements of arrays -/

namespace ArrayLayout

variable {M : Type} {env : Surroundings M} {known : (Temp → BitVec 64) → Prop} {lo mid hi : Nat}
  {base index : Exp} {mb mi : Action (BitVec 64) M (BitVec 64)}

/-- The offset of an element, whether it is folded into a constant or not. -/
theorem offset_means (arrays : ArrayLayout) (h : index.Means env.host known lo hi mi)
    (hstable : Stable known lo) : (arrays.elementOffset index).Means env.host known lo hi
      (do return ((← mi) + 1) * arrays.wordSize.toBitVec) := by
  have hcomputed : (Exp.plus (.const arrays.wordSize)
      (.binop .mul index (.const arrays.wordSize))).Means env.host known lo hi
      (do return ((← mi) + 1) * arrays.wordSize.toBitVec) := by
    refine ((Exp.Means.const lo arrays.wordSize).binop (h.binop (.const hi arrays.wordSize) hstable
      .mul) hstable .plus).imp ?_
    intro o v o' hgives
    simp only [gives_bind, gives_pure] at hgives ⊢
    obtain ⟨i, o₁, hmi, rfl, rfl⟩ := hgives
    refine ⟨_, o, ⟨rfl, rfl⟩, _, o₁, ⟨i, o₁, hmi, _, o₁, ⟨rfl, rfl⟩, rfl, rfl⟩, ?_, rfl⟩
    show arrays.wordSize.toBitVec + i * arrays.wordSize.toBitVec = (i + 1#64) * _
    rw [BitVec.add_mul, BitVec.one_mul, BitVec.add_comm]
  unfold elementOffset
  split
  · next n =>
    split
    · refine .of_pure h.le rfl (fun _ => rfl) (fun t ht => by cases ht) ?_
      intro u v o hgives hknown
      simp only [gives_bind, gives_pure] at hgives
      obtain ⟨i, o₁, hmi, rfl, rfl⟩ := hgives
      obtain ⟨rfl, ho⟩ := h.of_const hmi hknown
      refine ⟨?_, ho⟩
      show ((n + 1) * arrays.wordSize).toBitVec = _
      rw [Int64.toBitVec_mul, Int64.toBitVec_add]
      rfl
    · exact hcomputed
  · exact hcomputed

/-- The address of an element. -/
theorem address_means (arrays : ArrayLayout) (hbase : base.Means env.host known lo mid mb)
    (hindex : index.Means env.host known mid hi mi) (hstable : Stable known lo) :
    (Exp.plus base (arrays.elementOffset index)).Means env.host known lo hi (do
      let base ← mb
      let index ← mi
      return arrays.elementAddress base index) := by
  have := hbase.binop (arrays.offset_means hindex (hstable.mono hbase.le)) hstable .plus
  simp only [bind_assoc, pure_bind] at this
  exact this

end ArrayLayout

/-! ## New arrays and objects -/

section Allocation

variable {M : Type} {env : Surroundings M} {known : (Temp → BitVec 64) → Prop} {lo k : Nat}

/-- **A new array**: its length is kept, memory is reserved, and the length is
recorded there. -/
theorem Exp.Means.newArray {size : Exp} {m : Action (BitVec 64) M (BitVec 64)}
    (hsize : size.Means env.host known lo k m) (hstable : Stable known lo) (wordSize : Int64) :
    (Exp.eseq (Stm.seqAll [.move (.temp ⟨k, .plain "len"⟩) size,
        .move (.temp ⟨k + 1, .plain "arr"⟩) (.call (.name ⟨mallocName⟩)
          [.binop .mul (.plus (.temp ⟨k, .plain "len"⟩) (.const 1)) (.const wordSize)]),
        .move (.mem (.temp ⟨k + 1, .plain "arr"⟩)) (.temp ⟨k, .plain "len"⟩)])
      (.temp ⟨k + 1, .plain "arr"⟩)).Means env.host known lo (k + 2) (do
        let length ← m
        let array ← Action.call env.host (env.address ⟨mallocName⟩)
          [(length + 1) * wordSize.toBitVec]
        Action.store env.host array length
        return array) := by
  have hlen : ∀ n, (⟨k, .plain "len"⟩ : Temp).Under ⟨k + 1, n⟩ := fun _ => Nat.lt_succ_self k
  have hlen' : ∀ n, (⟨k, .plain "len"⟩ : Temp).Under ⟨k + 2, n⟩ := fun n =>
    (hlen n).mono ⟨Nat.le_succ _, Nat.le_refl _⟩
  have harr : ∀ n, (⟨k + 1, .plain "arr"⟩ : Temp).Under ⟨k + 2, n⟩ := fun _ =>
    Nat.lt_succ_self (k + 1)
  have hstable₁ : ∀ length, Stable (fun f => known f ∧ f ⟨k, .plain "len"⟩ = length) (k + 1) :=
    (hstable.mono (Nat.le_succ_of_le hsize.le)).and_eq hlen
  have hstable₂ : ∀ length array, Stable (fun f => (known f ∧ f ⟨k, .plain "len"⟩ = length) ∧
      f ⟨k + 1, .plain "arr"⟩ = array) (k + 2) := fun length =>
    ((hstable₁ length).mono (Nat.le_succ _)).and_eq harr
  have hreserve : ∀ length, (Exp.call (.name ⟨mallocName⟩) [.binop .mul
      (.plus (.temp ⟨k, .plain "len"⟩) (.const 1)) (.const wordSize)]).Means env.host
      (fun f => known f ∧ f ⟨k, .plain "len"⟩ = length) (k + 1) (k + 1)
      (Action.call env.host (env.address ⟨mallocName⟩) [(length + 1) * wordSize.toBitVec]) := by
    intro length
    have hlength : (Exp.temp ⟨k, .plain "len"⟩).Means env.host
        (fun f => known f ∧ f ⟨k, .plain "len"⟩ = length) (k + 1) (k + 1) (pure length) :=
      .temp hlen fun _ h => h.2
    have hbytes := (hlength.binop (.const (k + 1) 1) (hstable₁ length) .plus).binop
      (.const (k + 1) wordSize) (hstable₁ length) .mul
    exact hbytes.call_name (hstable₁ length) ⟨mallocName⟩
  have hrecord : ∀ length array, Stm.Acts env.host (fun f => (known f ∧
      f ⟨k, .plain "len"⟩ = length) ∧ f ⟨k + 1, .plain "arr"⟩ = array) (k + 2) (k + 2)
      [.move (.mem (.temp ⟨k + 1, .plain "arr"⟩)) (.temp ⟨k, .plain "len"⟩)] (do
        Action.store env.host array length
        return array) fun v f => f ⟨k + 1, .plain "arr"⟩ = v := by
    intro length array
    refine ((Stm.Acts.store (.temp harr fun _ h => h.2) (.temp hlen' fun _ h => h.1.2)
      (hstable₂ length array)).keep (hstable₂ length array)).imp ?_
    intro o v o' hgives
    simp only [gives_bind, gives_pure] at hgives
    obtain ⟨x, o₁, hstore, rfl, rfl⟩ := hgives
    refine ⟨x, ?_, fun f h => h.1.2⟩
    simpa only [pure_bind] using hstore
  have hacts := (Stm.Acts.set hsize "len").bind (fun length =>
    (Stm.Acts.set (hreserve length) "arr").bind (hrecord length) (Nat.le_refl _) (hstable₁ length))
    (Nat.le_succ _) hstable
  exact .eseq_temp hacts.sets harr hstable

/-- Words at offsets from an object are cleared one after the other. -/
theorem Stm.Acts.clear (ht : ∀ n, t.Under ⟨k, n⟩) (offset : Nat → Int64) (indices : List Nat)
    {known : (Temp → BitVec 64) → Prop} (hknown : ∀ f, known f → f t = object)
    (hstable : Stable known k) :
    Stm.Acts env.host known k k
      (indices.map fun index => .move (.mem (.plus (.temp t) (.const (offset index)))) (.const 0))
      (indices.forM fun index =>
        Action.store env.host (object + (offset index).toBitVec) 0) fun _ _ => True := by
  induction indices generalizing known with
  | nil => exact .nil k
  | cons index indices ih =>
    have hobject : (Exp.temp t).Means env.host known k k (pure object) := .temp ht hknown
    have haddress := hobject.binop (.const k (offset index)) hstable .plus
    have hfirst := Stm.Acts.store haddress (.const k 0) hstable
    refine hfirst.bind (fun _ => ih (fun f h => hknown f h.1) ?_) (Nat.le_refl _) hstable
    exact fun f g hsame h => ⟨hstable f g hsame h.1, trivial⟩

/-- **A new object**: memory is reserved, the table of its class is recorded
there, and its fields are cleared. -/
theorem Exp.Means.newObject (hstable : Stable known k) (layout : ClassLayout) :
    (Exp.eseq (Stm.seqAll
      (.move (.temp ⟨k, .plain "obj"⟩) (.call (.name ⟨mallocName⟩) [.const layout.size])
        :: .move (.mem (.temp ⟨k, .plain "obj"⟩)) (.name layout.vtable)
        :: (List.range layout.fields.length).map fun index =>
          .move (.mem (.plus (.temp ⟨k, .plain "obj"⟩) (.const (layout.offset index)))) (.const 0)))
      (.temp ⟨k, .plain "obj"⟩)).Means env.host known k (k + 1) (do
        let object ← Action.call env.host (env.address ⟨mallocName⟩) [layout.size.toBitVec]
        Action.store env.host object (env.address layout.vtable)
        (List.range layout.fields.length).forM fun index =>
          Action.store env.host (object + (layout.offset index).toBitVec) 0
        return object) := by
  have hobj : ∀ n, (⟨k, .plain "obj"⟩ : Temp).Under ⟨k + 1, n⟩ := fun _ => Nat.lt_succ_self k
  have hstable' : ∀ object, Stable (fun f => known f ∧ f ⟨k, .plain "obj"⟩ = object) (k + 1) :=
    (hstable.mono (Nat.le_succ k)).and_eq hobj
  have hreserve : (Exp.call (.name ⟨mallocName⟩) [.const layout.size]).Means env.host known k k
      (Action.call env.host (env.address ⟨mallocName⟩) [layout.size.toBitVec]) := by
    have hsize : (Exp.const layout.size).Means env.host known k k
        (pure layout.size.toBitVec) := .const k layout.size
    exact hsize.call_name hstable ⟨mallocName⟩
  have hfill : ∀ object, Stm.Acts env.host (fun f => known f ∧ f ⟨k, .plain "obj"⟩ = object) (k + 1)
      (k + 1) (.move (.mem (.temp ⟨k, .plain "obj"⟩)) (.name layout.vtable)
        :: (List.range layout.fields.length).map fun index =>
          .move (.mem (.plus (.temp ⟨k, .plain "obj"⟩) (.const (layout.offset index)))) (.const 0))
      (do
        Action.store env.host object (env.address layout.vtable)
        (List.range layout.fields.length).forM fun index =>
          Action.store env.host (object + (layout.offset index).toBitVec) 0
        return object) fun v f => f ⟨k, .plain "obj"⟩ = v := by
    intro object
    have hobject : (Exp.temp ⟨k, .plain "obj"⟩).Means env.host
        (fun f => known f ∧ f ⟨k, .plain "obj"⟩ = object) (k + 1) (k + 1) (pure object) :=
      .temp hobj fun _ h => h.2
    have htable := Stm.Acts.store hobject (.name (k + 1) layout.vtable) (hstable' object)
    simp only [pure_bind] at htable
    refine ((htable.bind (fun _ => .clear hobj layout.offset (List.range layout.fields.length)
      (fun f h => h.1.2) fun f g hsame h => ⟨hstable' object f g hsame h.1, trivial⟩)
      (Nat.le_refl _) (hstable' object)).keep (hstable' object)).imp ?_
    intro o v o' hgives
    simp only [gives_bind, gives_pure] at hgives ⊢
    obtain ⟨x, o₁, hstore, y, o₂, hforM, rfl, rfl⟩ := hgives
    exact ⟨y, ⟨x, o₁, hstore, hforM⟩, fun f h => h.1.2⟩
  have hacts := (Stm.Acts.set hreserve "obj").bind hfill (Nat.le_refl _) hstable
  exact .eseq_temp hacts.sets hobj hstable

end Allocation

/-! ## Expressions -/

namespace Program

variable {M : Type}

/-- The code of a method is found through the receiver's table. -/
theorem target_means {env : Surroundings M} {known : (Temp → BitVec 64) → Prop} {lo : Nat}
    (hknown : ∀ f, known f → f t = object) (offset : Int64) :
    (Exp.mem (.plus (.mem (.temp t)) (.const offset))).Means env.host known lo lo (do
      let table ← Action.load env.host object
      Action.load env.host (table + offset.toBitVec)) := by
  refine .of_pure (Nat.le_refl _) rfl nofun nofun ?_
  intro u v o hgives hf
  obtain ⟨table, o₁, htable, hload⟩ := gives_bind.mp hgives
  obtain ⟨rfl, rfl⟩ := gives_load.mp htable
  obtain ⟨rfl, rfl⟩ := gives_load.mp hload
  refine ⟨?_, rfl⟩
  rw [← hknown _ hf]
  rfl

mutual

/-- **Lowered expressions** mean what the expressions stand for, unless they ask
for the length of an array. -/
theorem Expr.lowers (env : Surroundings M) (s : Scope) (e : Expr) (hlength : e.usesLength = false)
    {regs : Temp → BitVec 64} {known : (Temp → BitVec 64) → Prop} {lo : Nat}
    (hknows : s.Knows regs known lo) :
    Lowers env known lo (e.lower s) (e.eval env s regs) := by
  intro a b f hf hle
  have hstable := hknows.stable.mono hle
  cases e with
  | int value =>
    obtain ⟨rfl, rfl⟩ := yields_pure.mp hf
    exact Exp.Means.const _ value
  | bool value =>
    obtain ⟨rfl, rfl⟩ := yields_pure.mp hf
    rw [Expr.eval, ← env.const_truth]
    exact Exp.Means.const _ _
  | ident name =>
    obtain ⟨e, he, rfl, rfl⟩ := of_lowerPlace hf
    exact (hknows.mono hle).lookup_means he
  | this =>
    obtain ⟨e, he, rfl, rfl⟩ := of_lowerPlace hf
    exact (hknows.mono hle).this_means env he
  | binary op l r =>
    rw [Expr.usesLength, Bool.or_eq_false_iff] at hlength
    exact lowerBinary_lowers (l.lowers env s hlength.1 hknows) (r.lowers env s hlength.2 hknows)
      hknows.stable op hf hle
  | not e =>
    obtain ⟨t, ht, rfl⟩ := yields_lower_not.mp hf
    have ht' := (e.lowers env s hlength hknows).value hknows.stable hle ht
    refine ht'.not.imp ?_
    intro o v o' hgives
    simp only [Expr.eval, gives_bind, gives_pure, gives_truth] at hgives ⊢
    obtain ⟨x, o₁, hx, rfl, rfl⟩ := hgives
    exact ⟨_, o₁, hx, Word.not_ofTruth x, rfl⟩
  | index array position =>
    rw [Expr.usesLength, Bool.or_eq_false_iff] at hlength
    obtain ⟨l, u, r, hl, hr, rfl⟩ := yields_lower_index.mp hf
    have hl' := (array.lowers env s hlength.1 hknows).value hknows.stable hle hl
    have hr' := (position.lowers env s hlength.2 hknows).value hknows.stable
      (Nat.le_trans hle hl'.le) hr
    have := (s.arrays.address_means hl' hr' hstable).read
    simp only [bind_assoc, pure_bind] at this
    exact this
  | length array => cases hlength
  | call receiver className method args =>
    rw [Expr.usesLength, Bool.or_eq_false_iff] at hlength
    obtain ⟨t, u, v, c, index, es, ht, -, hcount, hc, hindex, hes, rfl⟩ := of_lower_call hf
    have ht' := (receiver.lowers env s hlength.1 hknows).value hknows.stable hle ht
    have hobject : ∀ n, (⟨u.tempCount, .plain "recv"⟩ : Temp).Under ⟨v.tempCount, n⟩ := fun _ =>
      hcount ▸ Nat.lt_succ_self u.tempCount
    have hlev : lo ≤ v.tempCount := by
      have := ht'.le
      omega
    have hsets := ht'.sets "recv"
    rw [← hcount] at hsets
    -- the receiver is known where the code of the method and the arguments are evaluated
    have hcall : ∀ object, (Exp.call (.mem (.plus (.mem (.temp ⟨u.tempCount, .plain "recv"⟩))
        (.const (c.layout.offset index)))) (.temp ⟨u.tempCount, .plain "recv"⟩ :: es)).Means
        env.host (fun f => known f ∧ f ⟨u.tempCount, .plain "recv"⟩ = object) v.tempCount
        b.tempCount _ := fun object =>
      have hknows' := (hknows.mono hlev).and_eq hobject object
      (target_means (fun _ h => h.2) _).call (.cons (.temp hobject fun _ h => h.2)
        (Expr.argsLower env s args hlength.2 hknows' hes (Nat.le_refl _))) hknows'.stable
    refine (Exp.Means.eseq hsets hcall hstable).imp ?_
    intro o x o' hgives
    simp only [Expr.eval, gives_bind, gives_lift, gives_cons, gives_pure] at hgives ⊢
    obtain ⟨object, o₁, hobject, c', _, ⟨hc', rfl⟩, i, _, ⟨hi, rfl⟩, table, o₂, htable, target, o₃,
      htarget, vs, o₄, hvs, hcall⟩ := hgives
    rw [hc] at hc'
    obtain rfl := Option.some.inj hc'
    obtain rfl := Option.some.inj (hindex.symm.trans hi)
    exact ⟨object, o₁, hobject, target, o₃, ⟨table, o₂, htable, htarget⟩, _, o₄,
      ⟨object, vs, o₃, ⟨rfl, rfl⟩, hvs, rfl⟩, hcall⟩
  | newArray size =>
    obtain ⟨t, u, ht, -, hcount, rfl⟩ := of_lower_newArray hf
    have ht' := (size.lowers env s hlength hknows).value hknows.stable hle ht
    rw [hcount]
    exact ht'.newArray hstable s.arrays.wordSize
  | newObject className =>
    obtain ⟨c, hc, -, hcount, rfl⟩ := of_lower_newObject hf
    rw [hcount]
    refine (Exp.Means.newObject hstable c.layout).imp ?_
    intro o x o' hgives
    rw [Expr.eval, hc] at hgives
    exact hgives

/-- The arguments of a call mean what they stand for, from left to right. -/
theorem Expr.argsLower (env : Surroundings M) (s : Scope) (es : List Expr)
    (hlength : Expr.anyUsesLength es = false) {regs : Temp → BitVec 64}
    {known : (Temp → BitVec 64) → Prop} {lo : Nat} (hknows : s.Knows regs known lo)
    {a b : Session} {ts : List Exp} (h : Yields (Expr.lowerArgs s es) a ts b)
    (hle : lo ≤ a.tempCount) : Exp.AllMean env.host known a.tempCount b.tempCount ts
      (Expr.evalArgs env s regs es) := by
  cases es with
  | nil =>
    obtain ⟨rfl, rfl⟩ := yields_pure.mp h
    exact .nil _
  | cons e es =>
    rw [Expr.anyUsesLength, Bool.or_eq_false_iff] at hlength
    obtain ⟨t, u, ts', ht, hts, rfl⟩ := yields_lowerArgs_cons.mp h
    have ht' := (e.lowers env s hlength.1 hknows).value hknows.stable hle ht
    exact .cons ht' (Expr.argsLower env s es hlength.2 hknows hts (Nat.le_trans hle ht'.le))

end

/-- The value of a lowered expression. -/
theorem Expr.value_means (env : Surroundings M) {s : Scope} {e : Expr}
    (hlength : e.usesLength = false) {regs : Temp → BitVec 64} {known : (Temp → BitVec 64) → Prop}
    {a b : Session} (hknows : s.Knows regs known a.tempCount) {t : Exp}
    (ht : Yields (lowerValue (e.lower s)) a t b) :
    t.Means env.host known a.tempCount b.tempCount (e.eval env s regs) :=
  (e.lowers env s hlength hknows).value hknows.stable (Nat.le_refl _) ht

end Program

end TreeBackend
