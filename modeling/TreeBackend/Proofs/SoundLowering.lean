import TreeBackend.Proofs.AssignedTrees
import TreeBackend.Proofs.LoweredFrames

/-!
# What lowered trees jump to, write and read

The trees that lowering makes are in order, whatever the program does. They jump
to labels of their own only; they move values into memory, or into temps that
the session has handed out, and nowhere else; they use the frame pointer for the
address of a variable and for nothing else; and they read a temp only where it
is assigned: the frame pointer and the formals that travel in registers are
assigned from the start, and every other temp is set by the part of the tree that
drew it (`Stmt.sound`).
-/

namespace TreeBackend

open List Program

variable {e r src : Exp} {t : Temp} {program : Program} {words : Set Int64}

/-! ## What lowered trees may do -/

/-- What a lowered tree may do: address the words, assign temps that the session owns, move
values to temps and to memory, and jump to the labels. -/
abbrev Reach.owned (words : Set Int64) (s : Session) (ls : List Label) : Reach :=
  .frame words {t | s.Owns t} {l | l ∈ ls}

namespace Reach.PartOf

theorem frame {assigned assigned' : Set Temp} {targets targets' : Set Label}
    (h : assigned ⊆ assigned') (h' : targets ⊆ targets') :
    (Reach.frame words assigned targets).PartOf (.frame words assigned' targets') :=
  ⟨subset_rfl, fun _ => .inl, h, h', id⟩

/-- A session with more temps and more labels allows for more. -/
theorem owned {ls ls' : List Label} (h : ls ⊆ ls') {s s' : Session}
    (hle : s.tempCount ≤ s'.tempCount) :
    (Reach.owned words s ls).PartOf (.owned words s' ls') :=
  frame (fun _ ht => ht.mono hle) fun _ hl => h hl

/-- So do more labels by themselves. -/
theorem labels {ls ls' : List Label} (h : ls ⊆ ls') {s : Session} :
    (Reach.owned words s ls).PartOf (.owned words s ls') :=
  owned h (Nat.le_refl _)

end Reach.PartOf

theorem Stm.within_jump {l : Label} {ls : List Label} (h : l ∈ ls) {s : Session} :
    (jump l).Within (.owned words s ls) := h

/-! ## Sound trees -/

/-- The expression is **sound** where `known` is assigned: it jumps to labels of
its own, it writes temps that the session owns, it reads what is assigned, and it
uses the frame pointer for the addresses of `words` only. -/
structure Exp.Sound (words : Set Int64) (known : Set Temp) (s : Session) (e : Exp) : Prop where
  within : e.Within (.owned words s e.labels)
  readable : e.Readable known

/-- The statements are **sound**, one after the other, where `known` is assigned:
they jump to labels of their own or to one of `exits`, they write temps that the
session owns, they read what is assigned, they assign what is `gained`, and they
use the frame pointer for the addresses of `words` only. -/
structure Stm.Sound (words : Set Int64) (known : Set Temp) (s : Session) (stms : List Stm)
    (exits : List Label) (gained : Set Temp) : Prop where
  within : ∀ stm ∈ stms, stm.Within (.owned words s (exits ++ stms.flatMap labels))
  assigns : Stm.Assigns known stms exits gained

theorem Exp.labels_subset_labelsAll {es : List Exp} (he : e ∈ es) : e.labels ⊆ labelsAll es := by
  intro l hl
  obtain ⟨n, hn, hplaced⟩ := mem_filterMap.mp hl
  refine mem_filterMap.mpr ⟨n, ?_, hplaced⟩
  rw [nodesAll_eq]
  exact mem_flatMap_of_mem he hn

section Sound

variable {known known' gained gained' : Set Temp} {s s' : Session}

/-- What has no effects is readable where its temps are assigned. -/
theorem Exp.Readable.of_isPure (h : e.isPure = true) (ht : ∀ t ∈ e.temps, t ∈ known) :
    e.Readable known := by
  induction e using Exp.isPure.induct with
  | case1 n => exact .const n
  | case2 l => exact .name l
  | case3 t => exact .temp (ht t mem_cons_self)
  | case4 op l r ihl ihr =>
    rw [isPure, Bool.and_eq_true] at h
    rw [temps_binop, forall_mem_append] at ht
    exact .binop op (ihl h.1 ht.1) (ihr h.2 ht.2)
  | case5 e ih => exact .not (ih h ht)
  | case6 address ih => exact .mem (ih h ht)
  | case7 | case8 => cases h

namespace Exp.Sound

variable {l : Exp}

/-- Soundness is kept where more is assigned, and more was drawn. -/
theorem mono (h : e.Sound words known s) (hsub : known ⊆ known')
    (hle : s.tempCount ≤ s'.tempCount) : e.Sound words known' s' :=
  ⟨h.within.mono (.owned (List.Subset.refl _) hle), h.readable.mono hsub⟩

/-- An expression without effects is sound if its temps are assigned. -/
theorem of_isPure (h : e.isPure = true) (ht : ∀ t ∈ e.temps, t ∈ known)
    (hwithin : e.Within (.frame words ∅ ∅)) : e.Sound words known s :=
  ⟨hwithin.mono (.frame (Set.empty_subset _) (Set.empty_subset _)), .of_isPure h ht⟩

theorem const (n : Int64) : (Exp.const n).Sound words known s := of_isPure rfl nofun trivial

theorem name (l : Label) : (Exp.name l).Sound words known s := of_isPure rfl nofun trivial

/-- A plain temp may be read where it is assigned. -/
theorem plain {n : Nat} {name : String} (ht : ⟨n, .plain name⟩ ∈ known) :
    (Exp.temp ⟨n, .plain name⟩).Sound words known s :=
  of_isPure rfl (forall_mem_singleton.mpr ht) nofun

theorem binop (op : BinOp) (hl : l.Sound words known s) (hr : r.Sound words known s) :
    (Exp.binop op l r).Sound words known s where
  within := by
    rw [labels_binop]
    exact within_binop (hl.within.mono (.labels (subset_append_left ..)))
      (hr.within.mono (.labels (subset_append_right ..)))
  readable := .binop op hl.readable hr.readable

theorem not (h : e.Sound words known s) : (Exp.not e).Sound words known s :=
  ⟨h.within, .not h.readable⟩

theorem mem (h : e.Sound words known s) : (Exp.mem e).Sound words known s :=
  ⟨h.within, .mem h.readable⟩

/-- A call of sound operands is sound. -/
theorem call {f : Exp} {args : List Exp} (hf : f.Sound words known s)
    (hargs : ∀ e ∈ args, e.Sound words known s) : (Exp.call f args).Sound words known s where
  within := by
    rw [labels_call]
    refine ⟨hf.within.mono (.labels (subset_append_left ..)),
      allWithin_iff.mpr fun e he => ?_⟩
    exact (hargs e he).within.mono (.labels (subset_append_of_subset_right _
      (labels_subset_labelsAll he)))
  readable := .call hf.readable fun e he => (hargs e he).readable

/-- What a statement assigns may be read after it. -/
theorem eseq {stm : Stm} (hstm : Stm.Sound words known s [stm] [] gained)
    (he : e.Sound words (known ∪ gained) s) : (Exp.eseq stm e).Sound words known s where
  within := by
    have hwithin := hstm.within stm mem_cons_self
    rw [nil_append, flatMap_singleton] at hwithin
    rw [labels_eseq]
    exact ⟨hwithin.mono (.labels (subset_append_left ..)),
      he.within.mono (.labels (subset_append_right ..))⟩
  readable := .eseq hstm.assigns he.readable

end Exp.Sound

namespace Stm.Sound

variable {stms stms' : List Stm} {exits exits' : List Label} {branch no yes turn : Stm}
  {l₀ l₁ done again body : Label}

/-- No statements assign nothing. -/
protected theorem nil (known : Set Temp) (s : Session) (exits : List Label) :
    Sound words known s [] exits known :=
  ⟨nofun, .nil known exits⟩

/-- Soundness is kept where more is assigned, and more was drawn. -/
theorem mono (h : Sound words known s stms exits gained) (hsub : known ⊆ known')
    (hle : s.tempCount ≤ s'.tempCount) : Sound words known' s' stms exits gained :=
  ⟨fun stm hstm => (h.within stm hstm).mono (.owned (List.Subset.refl _) hle), h.assigns.mono hsub⟩

/-- Less may be counted on afterwards. -/
theorem weaken (h : Sound words known s stms exits gained) (hsub : gained' ⊆ gained) :
    Sound words known s stms exits gained' :=
  ⟨h.within, h.assigns.weaken hsub⟩

/-- **One after the other.** -/
protected theorem append (h : Sound words known s stms exits gained)
    (h' : Sound words (known ∪ gained) s stms' exits gained') :
    Sound words known s (stms ++ stms') exits (gained ∪ gained') where
  within := by
    rw [flatMap_append, forall_mem_append]
    exact ⟨fun stm hstm => (h.within stm hstm).mono (.labels (by grind)),
      fun stm hstm => (h'.within stm hstm).mono (.labels (by grind))⟩
  assigns := h.assigns.append h'.assigns

/-- Statements of which each is sound where the first is. -/
theorem of_forall (h : ∀ stm ∈ stms, Sound words known s [stm] exits ∅) :
    Sound words known s stms exits ∅ := by
  induction stms with
  | nil => exact (Sound.nil known s exits).weaken (Set.empty_subset _)
  | cons stm stms ih =>
    rw [forall_mem_cons] at h
    exact (h.1.append ((ih h.2).mono Set.subset_union_left (Nat.le_refl _))).weaken
      (Set.empty_subset _)

/-- Sound statements make a sound sequence. -/
theorem seqAll (h : Sound words known s stms exits gained) :
    Sound words known s [seqAll stms] exits gained where
  within := by
    rw [forall_mem_singleton, flatMap_singleton, labels_seqAll]
    exact within_seqAll h.within
  assigns := h.assigns.seqAll

/-- A move assigns its temp. -/
theorem move_temp (h : src.Sound words known s) {t : Temp} (ht : s.Owns t)
    (hne : t ≠ .framePointer) : Sound words known s [.move (.temp t) src] [] {t} where
  within := by
    rw [forall_mem_singleton, flatMap_singleton]
    exact ⟨Reach.admits_temp ht, hne, h.within⟩
  assigns := .move_temp h.readable t

theorem move_plain (h : src.Sound words known s) {n : Nat} {name : String} (hn : n < s.tempCount) :
    Sound words known s [.move (.temp ⟨n, .plain name⟩) src] [] {⟨n, .plain name⟩} :=
  move_temp h (Session.owns_plain name hn) nofun

/-- A move into memory assigns no temp. -/
theorem move_mem {address : Exp} (h : address.Sound words known s) (h' : src.Sound words known s) :
    Sound words known s [.move (.mem address) src] [] ∅ where
  within := by
    rw [forall_mem_singleton, flatMap_singleton, labels_move, Exp.labels_mem]
    exact ⟨Reach.admits_mem .., h.within.mono (.labels (by grind)),
      h'.within.mono (.labels (by grind))⟩
  assigns := .move_mem h.readable h'.readable

theorem exp (h : e.Sound words known s) : Sound words known s [.exp e] [] ∅ where
  within := by
    rw [forall_mem_singleton, flatMap_singleton]
    exact h.within
  assigns := .exp h.readable

/-- A branch may leave for its label. -/
theorem cjump (rel : RelOp) {l : Exp} (hl : l.Sound words known s) (hr : r.Sound words known s)
    (target : Label) : Sound words known s [.cjump rel l r target] [target] ∅ where
  within := by
    rw [forall_mem_singleton, flatMap_singleton, labels_cjump]
    exact ⟨mem_cons_self, hl.within.mono (.labels (by grind)), hr.within.mono (.labels (by grind))⟩
  assigns := .cjump hl.readable hr.readable target

/-- More exits may be allowed for. -/
theorem leave (h : Sound words known s stms exits gained) (hsub : exits ⊆ exits') :
    Sound words known s stms exits' gained where
  within stm hstm := (h.within stm hstm).mono (.labels (by grind))
  assigns := h.assigns.leave hsub

/-- A branch around a jump. -/
theorem around {skip : Label} (h : Sound words known s [branch] [skip] ∅) (target : Label) :
    Sound words known s [Stm.seqAll [branch, .jump target, .label skip]] [target] ∅ where
  within := by
    have hbranch := h.within branch mem_cons_self
    rw [forall_mem_singleton, flatMap_singleton, labels_seqAll]
    refine within_seqAll ?_
    simp only [forall_mem_cons, flatMap_cons, labels_jump, labels_label]
    exact ⟨hbranch.mono (.labels (by grind)), within_jump mem_cons_self, trivial, forall_mem_nil _⟩
  assigns := h.assigns.around target

/-- **A choice** made by statements that may leave for its labels. -/
theorem choice (h : Sound words known s stms [l₀, l₁] ∅) {n : Nat} {name : String}
    (hn : n < s.tempCount) (x y : Int64) (done : Label) :
    Sound words known s [Stm.seqAll (stms ++ Body.choice ⟨n, .plain name⟩ x y l₀ l₁ done)] []
      {⟨n, .plain name⟩} where
  within := by
    rw [forall_mem_singleton, flatMap_singleton, labels_seqAll]
    refine within_seqAll ?_
    rw [forall_mem_append, flatMap_append]
    refine ⟨fun stm hstm => (h.within stm hstm).mono (.labels ?_), ?_⟩
    · simp only [Body.choice, flatMap_cons, labels_jump, labels_label, labels_move]
      grind
    · have hmove (ls : List Label) (c : Int64) :
          (move (.temp ⟨n, .plain name⟩) (.const c)).Within (.owned words s ls) :=
        ⟨Reach.admits_temp (Session.owns_plain name hn), by rintro ⟨⟩, trivial⟩
      simp only [Body.choice, forall_mem_cons]
      exact ⟨trivial, hmove _ x, within_jump (by simp), trivial, hmove _ y, trivial,
        forall_mem_nil _⟩
  assigns := h.assigns.choice _ x y done

/-- Neither way of a conditional leaves it, and nothing is counted on after it. -/
theorem conditional (hbranch : Sound words known s [branch] [l₁] ∅)
    (hno : Sound words known s [no] [] ∅) (hyes : Sound words known s [yes] [] ∅) :
    Sound words known s [Stm.conditional branch no yes l₀ l₁ done] [] ∅ where
  within := by
    have hbranch' := hbranch.within branch mem_cons_self
    have hno' := hno.within no mem_cons_self
    have hyes' := hyes.within yes mem_cons_self
    rw [forall_mem_singleton, flatMap_singleton, labels_seqAll]
    refine within_seqAll ?_
    simp only [forall_mem_cons, flatMap_cons, labels_jump, labels_label]
    exact ⟨hbranch'.mono (.labels (by grind)), trivial, hno'.mono (.labels (by grind)),
      within_jump (by simp), trivial, hyes'.mono (.labels (by grind)), within_jump (by simp),
      trivial, forall_mem_nil _⟩
  assigns := hbranch.assigns.conditional hno.assigns hyes.assigns

/-- Nothing is counted on after a loop either. -/
theorem loop (hbranch : Sound words known s [branch] [body] ∅)
    (hturn : Sound words known s [turn] [] ∅) :
    Sound words known s [Stm.loop branch turn again body done] [] ∅ where
  within := by
    have hbranch' := hbranch.within branch mem_cons_self
    have hturn' := hturn.within turn mem_cons_self
    rw [forall_mem_singleton, flatMap_singleton, labels_seqAll]
    refine within_seqAll ?_
    simp only [forall_mem_cons, flatMap_cons, labels_jump, labels_label]
    exact ⟨trivial, hbranch'.mono (.labels (by grind)), within_jump (by simp), trivial,
      hturn'.mono (.labels (by grind)), within_jump (by simp), trivial, forall_mem_nil _⟩
  assigns := hbranch.assigns.loop hturn.assigns

end Stm.Sound

end Sound

/-! ## Fragments -/

/-- The operands of the fragment are sound. -/
def Fragment.Sound (words : Set Int64) (known : Set Temp) (s : Session) : Fragment → Prop
  | exp e => e.Sound words known s
  | stm t => Stm.Sound words known s [t] [] ∅
  | cond _ l r => l.Sound words known s ∧ r.Sound words known s

namespace Fragment.Sound

variable {known : Set Temp} {a b : Session} {f : Fragment}

/-- A fragment stays sound as the session goes on. -/
theorem mono (h : f.Sound words known a) (hle : a.tempCount ≤ b.tempCount) :
    f.Sound words known b := by
  cases f with
  | exp e => exact Exp.Sound.mono h subset_rfl hle
  | stm s => exact Stm.Sound.mono h subset_rfl hle
  | cond rel l r => exact ⟨h.1.mono subset_rfl hle, h.2.mono subset_rfl hle⟩

/-- The value of a fragment. -/
theorem toExp (h : f.Sound words known a) (he : Yields f.toExp a e b) :
    a.tempCount ≤ b.tempCount ∧ e.Sound words known b := by
  cases f with
  | exp l =>
    obtain ⟨rfl, rfl⟩ := of_toExp_exp he
    exact ⟨Nat.le_refl _, h⟩
  | stm s => exact absurd he not_yields_throw
  | cond rel l r =>
    obtain ⟨whenTrue, whenFalse, done, hdraws, hcount, rfl⟩ := of_toExp_cond he
    have hl := h.1.mono subset_rfl hdraws.temps
    have hr := h.2.mono subset_rfl hdraws.temps
    have htest := (Stm.Sound.cjump rel hl hr whenTrue).leave (subset_cons_self whenFalse _)
    exact ⟨hdraws.temps, .eseq (htest.choice (by omega) 0 1 done) (.plain (.inr rfl))⟩

/-- The branch of a fragment. -/
theorem toBranch (h : f.Sound words known a) {rel : RelOp} {target : Label} {stm : Stm}
    (hstm : Yields (f.toBranch rel target) a stm b) : Stm.Sound words known b [stm] [target] ∅ := by
  cases f with
  | exp l =>
    obtain ⟨rfl, rfl⟩ := of_toBranch_exp hstm
    exact .cjump rel h (.const 1) target
  | stm s => exact absurd hstm not_yields_throw
  | cond inner l r =>
    obtain ⟨-, rfl, rfl⟩ | ⟨-, -, rfl, rfl⟩ | ⟨-, -, rfl, rfl⟩ | ⟨-, -, skip, hdraws, -, rfl⟩ :=
      of_toBranch_cond hstm
    · exact .cjump inner h.1 h.2 target
    · exact .cjump .neq h.1 h.2 target
    · exact .cjump .eq h.1 h.2 target
    · have hl := h.1.mono subset_rfl hdraws.temps
      have hr := h.2.mono subset_rfl hdraws.temps
      exact (Stm.Sound.cjump .lt hl hr skip).around target

end Fragment.Sound

/-! ## Expressions -/

namespace Program

/-- What is lowered by `x` is **sound** in the session after it. -/
def LowersSound (words : Set Int64) (known : Set Temp) (x : CompileM Fragment) : Prop :=
  ∀ ⦃a b : Session⦄ ⦃f : Fragment⦄, Yields x a f b →
    a.tempCount ≤ b.tempCount ∧ f.Sound words known b

namespace LowersSound

variable {known : Set Temp} {a b : Session} {x y : CompileM Fragment} {f : Fragment}

/-- The value of what is lowered is sound. -/
theorem value (hx : LowersSound words known x) (h : Yields (lowerValue x) a e b) :
    a.tempCount ≤ b.tempCount ∧ e.Sound words known b := by
  obtain ⟨f, u, hf, he⟩ := yields_lowerValue.mp h
  obtain ⟨hle, hsound⟩ := hx hf
  obtain ⟨hle', hsound⟩ := hsound.toExp he
  exact ⟨Nat.le_trans hle hle', hsound⟩

/-- Two operands, one lowered after the other. -/
theorem pair (hx : LowersSound words known x) (hy : LowersSound words known y) {u : Session}
    {l : Exp} (hl : Yields (lowerValue x) a l u) (hr : Yields (lowerValue y) u r b) :
    a.tempCount ≤ b.tempCount ∧ l.Sound words known b ∧ r.Sound words known b := by
  obtain ⟨hle, hl⟩ := hx.value hl
  obtain ⟨hle', hr⟩ := hy.value hr
  exact ⟨Nat.le_trans hle hle', hl.mono subset_rfl hle', hr⟩

theorem arithmetic (hx : LowersSound words known x) (hy : LowersSound words known y) (op : BinOp) :
    LowersSound words known (lowerArithmetic op x y) := by
  intro a b f h
  obtain ⟨l, u, r, hl, hr, rfl⟩ := yields_lowerArithmetic.mp h
  obtain ⟨hle, hl, hr⟩ := hx.pair hy hl hr
  exact ⟨hle, hl.binop op hr⟩

/-- Both branches leave for the labels of the choice, which places them. -/
theorem logical (hx : LowersSound words known x) (hy : LowersSound words known y) (name : String)
    (rel : RelOp) (pick : Label → Label → Label) (hpick : ∀ l l', pick l l' ∈ [l, l']) :
    LowersSound words known (lowerLogical name x y fun f whenTrue whenFalse =>
      f.toBranch rel (pick whenTrue whenFalse)) := by
  intro a b f h
  obtain ⟨whenTrue, whenFalse, done, u, fx, v, fy, v', stm₁, v'', stm₂, hdraws, hcount, hfx, hfy,
    hstm₁, hstm₂, rfl⟩ := of_lowerLogical h
  obtain ⟨hle₁, hfx⟩ := hx hfx
  obtain ⟨hle₂, hfy⟩ := hy hfy
  have hle₃ := Fragment.le_of_toBranch hstm₁
  have hle₄ := Fragment.le_of_toBranch hstm₂
  have hfirst : Stm.Sound words known b [stm₁] [whenTrue, whenFalse] ∅ :=
    (((hfx.mono hle₂).toBranch hstm₁).mono subset_rfl hle₄).leave (by simpa using hpick _ _)
  have hsecond : Stm.Sound words known b [stm₂] [whenTrue, whenFalse] ∅ :=
    ((hfy.mono hle₃).toBranch hstm₂).leave (by simp)
  have htest := hfirst.append (hsecond.mono Set.subset_union_left (Nat.le_refl _))
  exact ⟨by omega, .eseq ((htest.weaken (Set.empty_subset _)).choice (by omega) 1 0 done)
    (.plain (.inr rfl))⟩

theorem binary (hx : LowersSound words known x) (hy : LowersSound words known y) (op : Operator) :
    LowersSound words known (lowerBinary op x y) := by
  cases op with
  | add | sub | mul | mod => exact hx.arithmetic hy _
  | lt =>
    intro a b f h
    obtain ⟨l, u, r, hl, hr, rfl⟩ := yields_lower_lt.mp h
    exact hx.pair hy hl hr
  | and => exact hx.logical hy _ _ (fun _ whenFalse => whenFalse) (by simp)
  | or => exact hx.logical hy _ _ (fun whenTrue _ => whenTrue) (by simp)

end LowersSound

end Program

/-! ## Variables -/

namespace Scope

variable {s : Scope}

/-- A variable is a temp of the method, or a word of its frame. -/
theorem temps_of_find? {name : String} {access : Access} (h : s.frame.find? name = some access) :
    ∀ t ∈ access.toExp.temps, s.Reads t := by
  intro t ht
  cases access with
  | register r =>
    obtain rfl := mem_singleton.mp ht
    exact .inr (Frame.mem_registerFormals h)
  | frame offset =>
    obtain rfl := mem_singleton.mp ht
    exact .inl rfl

/-- What a name stands for is made of the temps that the method works with. -/
theorem temps_of_lookup {name : String} (h : s.lookup name = .ok e) : ∀ t ∈ e.temps, s.Reads t := by
  obtain ⟨access, haccess, rfl⟩ | ⟨c, index, object, -, -, -, hthis, rfl⟩ := of_lookup h
  · exact temps_of_find? haccess
  · obtain ⟨-, access, -, haccess, rfl⟩ := of_this hthis
    rw [Exp.temps_mem, Exp.temps_binop, Exp.temps_const, append_nil]
    exact temps_of_find? haccess

end Scope

/-- The element of an array is as sound as the array and the index are. -/
theorem ArrayLayout.element_sound (arrays : ArrayLayout) {known : Set Temp} {s : Session}
    {base index : Exp} (hbase : base.Sound words known s) (hindex : index.Sound words known s) :
    (Exp.plus base (arrays.elementOffset index)).Sound words known s := by
  refine hbase.binop .plus ?_
  have hcomputed : (Exp.plus (.const arrays.wordSize)
      (.binop .mul index (.const arrays.wordSize))).Sound words known s :=
    .binop .plus (.const _) (.binop .mul hindex (.const _))
  unfold elementOffset
  split
  · split
    · exact .const _
    · exact hcomputed
  · exact hcomputed

namespace Program

variable {s : Scope}

mutual

/-- **Lowered expressions are sound** where the method's own temps are assigned. -/
theorem Expr.sound (hs : s.KeptIn words) (e : Expr) :
    LowersSound words {t | s.Reads t} (e.lower s) := by
  intro a b f h
  cases e with
  | int | bool =>
    obtain ⟨rfl, rfl⟩ := yields_pure.mp h
    exact ⟨Nat.le_refl _, .const _⟩
  | ident name =>
    obtain ⟨e, he, rfl, rfl⟩ := of_lowerPlace h
    exact ⟨Nat.le_refl _, .of_isPure (Scope.isPure_of_lookup he) (Scope.temps_of_lookup he)
      (hs.lookup he)⟩
  | this =>
    obtain ⟨e, he, rfl, rfl⟩ := of_lowerPlace h
    obtain ⟨-, access, -, haccess, rfl⟩ := Scope.of_this he
    exact ⟨Nat.le_refl _, .of_isPure access.isPure_toExp (Scope.temps_of_find? haccess)
      (hs haccess)⟩
  | binary op l r => exact (l.sound hs).binary (r.sound hs) op h
  | not e =>
    obtain ⟨t, ht, rfl⟩ := yields_lower_not.mp h
    obtain ⟨hle, hsound⟩ := (e.sound hs).value ht
    exact ⟨hle, hsound.not⟩
  | index array position =>
    obtain ⟨l, u, r, hl, hr, rfl⟩ := yields_lower_index.mp h
    obtain ⟨hle, hl, hr⟩ := (array.sound hs).pair (position.sound hs) hl hr
    exact ⟨hle, (s.arrays.element_sound hl hr).mem⟩
  | length array =>
    obtain ⟨t, ht, rfl⟩ := yields_lower_length.mp h
    obtain ⟨hle, hsound⟩ := (array.sound hs).value ht
    exact ⟨hle, hsound.mem⟩
  | call receiver className method args =>
    obtain ⟨t, u, v, c, index, es, ht, hdraws, hcount, -, -, hes, rfl⟩ := of_lower_call h
    obtain ⟨hle, hreceiver⟩ := (receiver.sound hs).value ht
    obtain ⟨hle', hargs⟩ := Expr.allSound hs args hes
    -- the receiver is in its temp before the arguments are evaluated
    have hobject : (Exp.temp ⟨u.tempCount, .plain "recv"⟩).Sound words
        ({t | s.Reads t} ∪ {⟨u.tempCount, .plain "recv"⟩}) b := .plain (.inr rfl)
    refine ⟨by omega, .eseq (.move_plain (hreceiver.mono subset_rfl (by omega)) (by omega))
      (.call (.mem (.binop .plus hobject.mem (.const _))) ?_)⟩
    exact forall_mem_cons.mpr
      ⟨hobject, fun e he => (hargs e he).mono Set.subset_union_left (Nat.le_refl _)⟩
  | newArray size =>
    obtain ⟨t, u, ht, hdraws, hcount, rfl⟩ := of_lower_newArray h
    obtain ⟨hle, hsize⟩ := (size.sound hs).value ht
    refine ⟨by omega, .eseq (Stm.Sound.seqAll
      ((Stm.Sound.move_plain (hsize.mono subset_rfl hdraws.temps) (by omega)).append
        ((Stm.Sound.move_plain (.call (.name _) ?_) (by omega)).append
          (.move_mem (.plain ?_) (.plain ?_))))) (.plain ?_)⟩
    · exact forall_mem_singleton.mpr (.binop _ (.binop _ (.plain (.inr rfl)) (.const _)) (.const _))
    all_goals simp
  | newObject className =>
    obtain ⟨c, -, hdraws, hcount, rfl⟩ := of_lower_newObject h
    refine ⟨by omega, .eseq (Stm.Sound.seqAll
      ((Stm.Sound.move_plain (.call (.name _) ?_) (by omega)).append
        ((Stm.Sound.move_mem (.plain ?_) (.name _)).append (.of_forall ?_)))) (.plain ?_)⟩
    · exact forall_mem_singleton.mpr (.const _)
    · simp
    · intro stm hstm
      obtain ⟨index, -, rfl⟩ := mem_map.mp hstm
      exact .move_mem (.binop _ (.plain (by simp)) (.const _)) (.const 0)
    · simp

/-- **Lowered arguments are sound**, in the session after the last of them. -/
theorem Expr.allSound (hs : s.KeptIn words) (es : List Expr) {a b : Session} {ts : List Exp}
    (h : Yields (Expr.lowerArgs s es) a ts b) :
    a.tempCount ≤ b.tempCount ∧ ∀ t ∈ ts, t.Sound words {t | s.Reads t} b := by
  cases es with
  | nil =>
    obtain ⟨rfl, rfl⟩ := yields_pure.mp h
    exact ⟨Nat.le_refl _, nofun⟩
  | cons e es =>
    obtain ⟨t, u, ts', ht, hts, rfl⟩ := yields_lowerArgs_cons.mp h
    obtain ⟨hle, hsound⟩ := (e.sound hs).value ht
    obtain ⟨hle', hrest⟩ := Expr.allSound hs es hts
    exact ⟨Nat.le_trans hle hle', forall_mem_cons.mpr ⟨hsound.mono subset_rfl hle', hrest⟩⟩

end

/-! ## Statements -/

/-- A destination is a word of memory, or a temp that was drawn with the frame. -/
theorem move_sound (hs : s.KeptIn words) {name : String} {dst t : Exp} {b : Session}
    (hdst : s.lookup name = .ok dst) (howned : ∀ t ∈ s.frame.registerFormals, b.Owns t)
    (ht : t.Sound words {t | s.Reads t} b) :
    Stm.Sound words {t | s.Reads t} b [.move dst t] [] ∅ := by
  have hpure := Scope.isPure_of_lookup hdst
  have htemps := Scope.temps_of_lookup hdst
  have hwithin := hs.lookup hdst
  obtain ⟨access, haccess, rfl⟩ | ⟨c, index, object, -, -, -, -, rfl⟩ := Scope.of_lookup hdst
  · cases access with
    | register r =>
      exact (Stm.Sound.move_temp ht (howned r (Frame.mem_registerFormals haccess))
        hwithin).weaken (Set.empty_subset _)
    | frame offset => exact .move_mem (.of_isPure rfl htemps hwithin) ht
  · exact .move_mem (.of_isPure hpure htemps hwithin) ht

mutual

/-- **Lowered statements are sound** where the method's own temps are assigned. -/
theorem Stmt.sound (hs : s.KeptIn words) (stmt : Stmt) {a b : Session} {stm : Stm}
    (howned : ∀ t ∈ s.frame.registerFormals, a.Owns t) (h : Yields (stmt.lower s) a stm b) :
    Stm.Sound words {t | s.Reads t} b [stm] [] ∅ := by
  cases stmt with
  | block body =>
    obtain ⟨stms, hstms, rfl⟩ := yields_lower_block.mp h
    exact (Stm.Sound.of_forall (Stmt.allSound hs body howned hstms)).seqAll
  | ite condition whenTrue whenFalse =>
    obtain ⟨thenLabel, elseLabel, done, u, f, v, branch, v', no, v'', yes, hdraws, hf, hbranch, hno,
      hyes, rfl⟩ := of_lower_ite h
    obtain ⟨hle₁, hf⟩ := condition.sound hs hf
    have hle := hdraws.temps
    have hle₂ := Fragment.le_of_toBranch hbranch
    have hle₃ := (whenFalse.draws s hno).temps
    have hle₄ := (whenTrue.draws s hyes).temps
    have hno' := whenFalse.sound hs (fun t ht => (howned t ht).mono (by omega)) hno
    have hyes' := whenTrue.sound hs (fun t ht => (howned t ht).mono (by omega)) hyes
    exact .conditional ((hf.toBranch hbranch).mono subset_rfl (by omega))
      (hno'.mono subset_rfl hle₄) hyes'
  | «while» condition body =>
    obtain ⟨test, bodyLabel, done, u, f, v, branch, v', turn, hdraws, hf, hbranch, hturn, rfl⟩ :=
      of_lower_while h
    obtain ⟨hle₁, hf⟩ := condition.sound hs hf
    have hle := hdraws.temps
    have hle₂ := Fragment.le_of_toBranch hbranch
    have hle₃ := (body.draws s hturn).temps
    have hturn' := body.sound hs (fun t ht => (howned t ht).mono (by omega)) hturn
    exact .loop ((hf.toBranch hbranch).mono subset_rfl hle₃) hturn'
  | print value =>
    obtain ⟨t, u, ht, hdraws, rfl⟩ := of_lower_print h
    obtain ⟨-, hsound⟩ := (value.sound hs).value ht
    exact .exp (.call (.name _) (forall_mem_singleton.mpr (hsound.mono subset_rfl hdraws.temps)))
  | assign name value =>
    obtain ⟨dst, t, hdst, ht, rfl⟩ := of_lower_assign h
    obtain ⟨hle, hsound⟩ := (value.sound hs).value ht
    exact move_sound hs hdst (fun t ht => (howned t ht).mono hle) hsound
  | arrayAssign name position value =>
    obtain ⟨base, t₁, u, t₂, hbase, ht₁, ht₂, rfl⟩ := of_lower_arrayAssign h
    obtain ⟨-, hposition, hvalue⟩ := (position.sound hs).pair (value.sound hs) ht₁ ht₂
    have hbase' : base.Sound words {t | s.Reads t} b :=
      .of_isPure (Scope.isPure_of_lookup hbase) (Scope.temps_of_lookup hbase) (hs.lookup hbase)
    exact .move_mem (s.arrays.element_sound hbase' hposition) hvalue

/-- **The statements of a block are sound**, each by itself. -/
theorem Stmt.allSound (hs : s.KeptIn words) (body : List Stmt) {a b : Session} {stms : List Stm}
    (howned : ∀ t ∈ s.frame.registerFormals, a.Owns t)
    (h : Yields (Stmt.lowerAll s body) a stms b) :
    ∀ stm ∈ stms, Stm.Sound words {t | s.Reads t} b [stm] [] ∅ := by
  cases body with
  | nil =>
    obtain ⟨rfl, rfl⟩ := yields_pure.mp h
    exact nofun
  | cons first rest =>
    obtain ⟨stm, u, stms', hstm, hstms, rfl⟩ := yields_lowerAll_cons.mp h
    have hle := (first.draws s hstm).temps
    have hle' := (Stmt.allDraws s rest hstms).temps
    have hfirst := (first.sound hs howned hstm).mono subset_rfl hle'
    exact forall_mem_cons.mpr
      ⟨hfirst, Stmt.allSound hs rest (fun t ht => (howned t ht).mono hle) hstms⟩

end

end Program

/-! ## Methods -/

namespace Frame.Drawn

variable {frame : Frame} {s : Session}

/-- The temp of the result was drawn. -/
theorem owns_result (h : frame.Drawn s.tempCount) : s.Owns frame.result := by
  obtain ⟨name, hkind⟩ := h.plain
  unfold Session.Owns
  rw [hkind]
  exact h.result

theorem result_ne (h : frame.Drawn s.tempCount) : frame.result ≠ .framePointer := by
  obtain ⟨name, hkind⟩ := h.plain
  intro heq
  rw [heq] at hkind
  cases hkind

/-- The temps of formals were drawn. -/
theorem owns_formals (h : frame.Drawn s.tempCount) : ∀ t ∈ frame.registerFormals, s.Owns t := by
  intro t ht
  obtain ⟨name, hkind, -, hlt⟩ := h.formals t ht
  unfold Session.Owns
  rw [hkind]
  exact hlt

end Frame.Drawn

namespace MethodTree

/-- The tree of a method is **sound** in a session. It places every label once, and
the session knows it. It jumps to labels that it places, and writes temps that
the session owns. Where the frame pointer and the entry of the method are
assigned, it reads what is assigned, and assigns the exit. It uses the frame pointer
for nothing but the addresses of words in use, of a frame that was built for it. -/
structure Sound (s : Session) (tree : MethodTree) : Prop where
  once : tree.body.toStm.labels.Nodup
  known : ∀ l ∈ tree.body.toStm.labels, l ∈ s.labels
  entry : ∀ t ∈ tree.entry, s.Owns t
  assigns : Stm.Assigns {t | t = .framePointer ∨ t ∈ tree.entry} [tree.body.toStm] []
    {t | t ∈ tree.exit}
  within : tree.body.toStm.Within (.owned tree.frame.wordsInUse s tree.body.toStm.labels)
  built : ∃ formals locals, tree.frame.Built formals locals [] s

variable {table : ClassTable} {arrays : ArrayLayout} {a b : Session} {tree : MethodTree}

/-- A tree stays sound as the session goes on. -/
theorem Sound.mono (h : tree.Sound a) (hab : a.Continues b) : tree.Sound b where
  once := h.once
  known l hl := hab.labels l (h.known l hl)
  entry t ht := (h.entry t ht).mono hab.le
  assigns := h.assigns
  within := h.within.mono (.owned (List.Subset.refl _) hab.le)
  built := by
    obtain ⟨formals, locals, hbuilt⟩ := h.built
    exact ⟨formals, locals, .elsewhere hbuilt hab⟩

/-- What a sound tree may do, node by node. -/
theorem Sound.nodes_within (h : tree.Sound a) : ∀ n ∈ tree.body.toStm.nodes,
    n.Within ⟨.univ, ∅, .univ, {l | l ∈ tree.body.toStm.labels}, True⟩ :=
  (Stm.within_iff rfl _).mp (h.within.mono
    ⟨Set.subset_univ _, fun _ _ => .inr trivial, Set.subset_univ _, subset_rfl, id⟩)

/-- A sound tree has a canonical form. -/
theorem Sound.exists_canonicalize (h : tree.Sound a) (s : Session) :
    ∃ c u, Yields tree.body.toStm.canonicalize s c u := by
  refine tree.body.toStm.exists_canonicalize (fun n hn => ?_) s
  have hwithin := h.nodes_within n hn
  cases n with
  | exp e => rfl
  | stm stm =>
    cases stm with
    | move dst src =>
      cases dst with
      | temp | mem => rfl
      | const | name | binop | not | call | eseq => cases hwithin.2 trivial
    | exp | jump | cjump | label | seq => rfl

/-- A tree is sound if its body is, and its labels were drawn after its frame. -/
theorem Sound.of_body {u : Session} {formals locals : List String}
    (hbuilt : tree.frame.Built formals locals [] u) (hub : u.Continues b)
    (hdraws : u.Draws b tree.body.toStm.labels) {gained : Set Temp}
    (hbody : Stm.Sound tree.frame.wordsInUse {t | t = .framePointer ∨ t ∈ tree.entry} b
      [tree.body.toStm] [] gained)
    (hexit : ∀ t ∈ tree.exit, t ∈ gained) : tree.Sound b where
  once := hdraws.nodup
  known := hdraws.drawn
  entry t ht := (hbuilt.laid.drawn.owns_formals t ht).mono hub.le
  assigns := hbody.assigns.weaken hexit
  within := by
    have hwithin := hbody.within _ mem_cons_self
    rwa [nil_append, flatMap_singleton] at hwithin
  built := ⟨_, _, .elsewhere hbuilt hub⟩

/-- At most the result is live at the exit. -/
theorem mem_exit (h : t ∈ tree.exit) : t = tree.frame.result := by
  unfold exit at h
  split at h
  · exact mem_singleton.mp h
  · cases h

/-- **The tree of a method is sound.** -/
theorem sound_ofMethod {c : ClassDecl} {m : MethodDecl}
    (h : Yields (ofMethod c m table arrays) a tree b) : tree.Sound b := by
  obtain ⟨info, u, stms, v, t, -, hframe, hstms, ht, hbody⟩ := of_ofMethod h
  have hbuilt := Frame.built_methodFrame hframe
  have hdrawn := hbuilt.laid.drawn
  have hs : (tree.scope (some info) table arrays).KeptIn tree.frame.wordsInUse :=
    fun h => hbuilt.laid.within_of_find? h
  have hub : u.Continues b := ((Stmt.growing_lowerAll _ _).continues hstms).trans
    (((m.result.growing_lower _).bind fun f => f.growing_toExp).continues ht)
  have hvalue := (m.result.draws _).value ht
  have hdraws : u.Draws b tree.body.toStm.labels := by
    rw [hbody, Stm.labels_seqAll, flatMap_append, flatMap_singleton]
    exact (Stmt.allDraws _ _ hstms).append hvalue
  have hstms' := (Stm.Sound.of_forall (Stmt.allSound hs _ hdrawn.owns_formals hstms)).mono
    subset_rfl hvalue.temps
  obtain ⟨-, hsound⟩ := (m.result.sound hs).value ht
  have hresult := Stm.Sound.move_temp hsound (hdrawn.owns_result.mono hdraws.temps) hdrawn.result_ne
  have hall := hstms'.append (hresult.mono Set.subset_union_left (Nat.le_refl _))
  exact .of_body hbuilt hub hdraws (hbody ▸ hall.seqAll) fun t ht => .inr (mem_exit ht)

/-- **The tree of a main method is sound.** -/
theorem sound_ofMain (h : Yields (ofMain program table arrays) a tree b) : tree.Sound b := by
  obtain ⟨u, hframe, hbody⟩ := of_ofMain h
  have hbuilt := Frame.Built.new hframe
  have hexit : tree.exit = [] := by
    simp only [ofMain, yields_bind, yields_lift, yields_pure] at h
    obtain ⟨_, _, _, _, _, _, rfl, _⟩ := h
    rfl
  refine .of_body hbuilt ((Stmt.growing_lower _ _).continues hbody) (Stmt.draws _ _ hbody)
    (Stmt.sound (fun h => hbuilt.laid.within_of_find? h) _ hbuilt.laid.drawn.owns_formals hbody)
    fun t ht => ?_
  rw [hexit] at ht
  cases ht

/-- **All trees of a program are sound.** -/
theorem sound_ofProgram {trees : List MethodTree} (h : Yields (ofProgram program table) a trees b) :
    ∀ tree ∈ trees, tree.Sound b := by
  simp only [ofProgram, yields_bind, yields_lift, yields_pure] at h
  obtain ⟨arrays, u, -, main, v, hmain, methods, b', hmethods, rfl, rfl⟩ := h
  obtain ⟨hcontinues, hall⟩ := hmethods.of_mapM (R := Session.Continues) .refl .trans
    fun h => (growing_ofMethod _ _ table arrays).continues h
  rw [forall_mem_cons]
  refine ⟨(sound_ofMain hmain).mono hcontinues, fun tree htree => ?_⟩
  obtain ⟨entry, -, c, d, -, hyields, hrest⟩ := hall tree htree
  exact (sound_ofMethod hyields).mono hrest

end MethodTree

end TreeBackend
