import TreeBackend.Proofs.DefiniteAssignment
import TreeBackend.Proofs.SelectedStatements

/-!
# What selected code touches

Selection turns a plain statement into instructions with the same footprint, as
far as anyone outside can tell: they place the statement's label, jump to its
target, and where the statement reads only what is assigned, so do they. The
temps they write on the way are drawn from the session, or registers that calls
and divisions write.

Nothing is asked of the statement but that it is plain and canonical. Selection
succeeds on every such statement (`Stm.select_traces`), whatever temps it
mentions, and so it does on every body made of them (`Selection.ofMethod_traces`).
-/

namespace TreeBackend

open List Footprint Selection

variable {known : Set Temp} {i : Instruction}

/-- Calls and divisions write registers, which every session owns. -/
theorem Session.owns_of_mem_clobbers {s : Session} {t : Temp} (h : t ∈ clobbers) : s.Owns t := by
  obtain rfl | h := mem_cons.mp h
  · rfl
  · obtain rfl := mem_singleton.mp h
    rfl

/-! ## Straight code -/

/-- **Straight code** between two sets of assigned temps: no labels, no jumps,
and all that is read is assigned. -/
structure StraightCode (known : Set Temp) (is : List Instruction) (known' : Set Temp) : Prop where
  labels : ∀ i ∈ is, i.label? = none
  targets : ∀ i ∈ is, i.targets = []
  flows : ∀ promise more,
    Flows promise (known ∪ more) (is.map Instruction.footprint) (known' ∪ more)

namespace StraightCode

variable {known' known'' : Set Temp} {is js : List Instruction}

protected theorem nil (known : Set Temp) : StraightCode known [] known :=
  ⟨by simp, by simp, fun _ _ => .nil subset_rfl⟩

/-- Straight code, with what the first part defines known to the second. -/
protected theorem append (h : StraightCode known is known') (h' : StraightCode known' js known'') :
    StraightCode known (is ++ js) known'' where
  labels := forall_mem_append.mpr ⟨h.labels, h'.labels⟩
  targets := forall_mem_append.mpr ⟨h.targets, h'.targets⟩
  flows promise more := by
    rw [map_append]
    exact (h.flows promise more).append (h'.flows promise more)

/-- One instruction that reads what is known. -/
protected theorem single (hlabel : i.label? = none) (htargets : i.targets = [])
    (huses : ∀ t ∈ i.uses, t ∈ known) : StraightCode known [i] (known ∪ {t | t ∈ i.defs}) where
  labels := forall_mem_singleton.mpr hlabel
  targets := forall_mem_singleton.mpr htargets
  flows promise more := by
    have hsafe : i.footprint.Safe promise (known ∪ more) :=
      safe_of_none hlabel (fun t ht => .inl (huses t ht)) fun l hl => by
        rw [show i.footprint.targets = [] from htargets] at hl
        cases hl
    refine (Flows.singleton hsafe).weaken ?_
    rw [leave, arrive_of_none hlabel, Set.union_right_comm]
    exact subset_rfl

/-- Straight code places no label. -/
theorem labels_eq (h : StraightCode known is known') :
    Footprint.labels (is.map Instruction.footprint) = [] := by
  rw [labels_code]
  exact filterMap_eq_nil_iff.mpr h.labels

/-- And it jumps nowhere. -/
theorem jumps_eq (h : StraightCode known is known') :
    jumps (is.map Instruction.footprint) = [] := by
  rw [jumps_code]
  exact flatMap_eq_nil_iff.mpr h.targets

end StraightCode

/-! ## Selections -/

/-- **The selection supplies a result.** Whatever was selected before, it
succeeds with a result that has the property `post`, and adds straight code. The
code reads what is assigned and writes temps of the session, or those in `mine`. -/
def Supplies {α : Type} (x : SelectM α) (mine known : Set Temp) (post : α → Set Temp → Prop) :
    Prop :=
  ∀ s : Selection, ∃ r s' is known', Yields x s r s' ∧
    s'.code.instructions = s.code.instructions ++ is ∧ s.session.DrawsTemps s'.session ∧
    StraightCode known is known' ∧ known ⊆ known' ∧
    (∀ i ∈ is, ∀ t ∈ i.defs, t ∈ mine ∨ s'.session.Owns t) ∧ post r known'

/-- The instruction may be added where `known` is assigned. -/
structure Instruction.Fits (i : Instruction) (mine known : Set Temp) : Prop where
  label : i.label? = none
  targets : i.targets = []
  uses : ∀ t ∈ i.uses, t ∈ known
  defs : ∀ t ∈ i.defs, t ∈ mine ∨ t ∈ clobbers

namespace Supplies

variable {α β : Type} {mine : Set Temp} {post : α → Set Temp → Prop} {post' : β → Set Temp → Prop}

protected theorem pure {r : α} (h : post r known) : Supplies (pure r) mine known post :=
  fun s => ⟨r, s, [], known, yields_pure.mpr ⟨rfl, rfl⟩, (append_nil _).symm, .refl _, .nil _,
    subset_rfl, by simp, h⟩

/-- What the first part supplies is known to the second. -/
protected theorem bind {x : SelectM α} {f : α → SelectM β} (hx : Supplies x mine known post)
    (hf : ∀ r known', known ⊆ known' → post r known' → Supplies (f r) mine known' post') :
    Supplies (x >>= f) mine known post' := by
  intro s
  obtain ⟨r, s₁, is, known₁, hx, his, hdraws, hcode, hsub, hwrites, hpost⟩ := hx s
  obtain ⟨r', s₂, js, known₂, hf, hjs, hdraws', hcode', hsub', hwrites', hpost'⟩ :=
    hf r known₁ hsub hpost s₁
  refine ⟨r', s₂, is ++ js, known₂, yields_bind.mpr ⟨r, s₁, hx, hf⟩, ?_, hdraws.trans hdraws',
    hcode.append hcode', hsub.trans hsub', forall_mem_append.mpr ⟨?_, hwrites'⟩, hpost'⟩
  · rw [hjs, his, append_assoc]
  · exact fun i hi t ht => (hwrites i hi t ht).imp_right fun h => h.mono hdraws'.le

theorem imp {post' : α → Set Temp → Prop} {x : SelectM α} (hx : Supplies x mine known post)
    (h : ∀ r known', known ⊆ known' → post r known' → post' r known') :
    Supplies x mine known post' := by
  intro s
  obtain ⟨r, s', is, known', hx, his, hdraws, hcode, hsub, hwrites, hpost⟩ := hx s
  exact ⟨r, s', is, known', hx, his, hdraws, hcode, hsub, hwrites, h r known' hsub hpost⟩

theorem emit (hi : i.Fits mine known) {post : Unit → Set Temp → Prop}
    (h : post () (known ∪ {t | t ∈ i.defs})) : Supplies (Selection.emit i) mine known post := by
  intro s
  refine ⟨(), _, [i], _, rfl, rfl, .refl _, .single hi.label hi.targets hi.uses,
    Set.subset_union_left, forall_mem_singleton.mpr fun t ht => ?_, h⟩
  exact (hi.defs t ht).imp_right Session.owns_of_mem_clobbers

/-- What an instruction defines is known after it. -/
theorem emit_bind (hi : i.Fits mine known) {f : Unit → SelectM β}
    (hf : Supplies (f ()) mine (known ∪ {t | t ∈ i.defs}) post') :
    Supplies (Selection.emit i >>= f) mine known post' := by
  have hemit : Supplies (Selection.emit i) mine known
      fun _ known' => known' = known ∪ {t | t ∈ i.defs} := emit hi rfl
  exact hemit.bind fun _ _ _ heq => heq ▸ hf

/-- A temp that is drawn belongs to the session from then on. -/
theorem fresh {name : String} {f : Temp → SelectM β}
    (hf : ∀ t, Supplies (f t) (insert t mine) known post') :
    Supplies (Selection.fresh name >>= f) mine known post' := by
  intro s
  let t : Temp := ⟨s.session.tempCount, .plain name⟩
  let s₁ : Selection :=
    { session := s.session.withTemp name
      code := { s.code with temps := s.code.temps ++ [t] } }
  have hfresh : Yields (Selection.fresh name) s t s₁ := rfl
  obtain ⟨r, s₂, is, known', hx, his, hdraws, hcode, hsub, hwrites, hpost⟩ := hf t s₁
  refine ⟨r, s₂, is, known', yields_bind.mpr ⟨t, s₁, hfresh, hx⟩, his,
    ⟨Nat.le_of_succ_le hdraws.le, hdraws.labels, hdraws.config⟩, hcode, hsub,
    fun i hi u hu => ?_, hpost⟩
  obtain (rfl | hmine) | howns := hwrites i hi u hu
  · exact .inr hdraws.le
  · exact .inl hmine
  · exact .inr howns

end Supplies

/-! ## Covers -/

/-- The cover supplies what each of its roles asks for. -/
structure Selection.Cover.SuppliesFrom (c : Cover) (mine known : Set Temp) : Prop where
  value : Supplies c.value mine known fun t known' => t ∈ known'
  address : Supplies c.address mine known fun a known' => ∀ t ∈ a.base?.toList, t ∈ known'
  callee : Supplies c.callee mine known fun f known' => ∀ t ∈ (f.instruction []).uses, t ∈ known'

/-- Supplies a temp that is assigned. -/
abbrev SuppliesTemp (x : SelectM Temp) (mine known : Set Temp) : Prop :=
  Supplies x mine known fun t known' => t ∈ known'

namespace SuppliesTemp

variable {mine : Set Temp} {left right : SelectM Temp}

theorem displace (c : Int64) (h : SuppliesTemp left mine known) :
    Supplies (do return ⟨some (← left), c⟩) mine known
      fun (a : Address) known' => ∀ t ∈ a.base?.toList, t ∈ known' :=
  h.bind fun _ _ _ ht => .pure (by simpa using ht)

theorem ofValue (h : SuppliesTemp left mine known) :
    (Cover.ofValue left).SuppliesFrom mine known where
  value := h
  address := displace 0 h
  callee := h.bind fun _ _ _ ht => .pure (by simpa [Callee.instruction, Instruction.callRegister]
    using ht)

variable {name : String} {opcode : Opcode}

/-- One instruction sets a new temp. -/
theorem set {i : Temp → Instruction} (hi : ∀ t, (i t).Fits (insert t mine) known)
    (hdefs : ∀ t, t ∈ (i t).defs) :
    SuppliesTemp (do let t ← fresh name; Selection.emit (i t); return t) mine known :=
  .fresh fun t => .emit_bind (hi t) (.pure (.inr (hdefs t)))

/-- A copy in a new temp is changed by a second instruction. -/
theorem copyThen {a : Temp} {i : Temp → Instruction} (ha : a ∈ known)
    (hi : ∀ t, (i t).Fits (insert t mine) (known ∪ {t})) :
    SuppliesTemp (do
      let t ← fresh name
      Selection.emit (.mov t a)
      Selection.emit (i t)
      return t) mine known := by
  refine .fresh fun t => .emit_bind ⟨rfl, rfl, ?_, ?_⟩ (.emit_bind ?_ (.pure ?_))
  · exact forall_mem_singleton.mpr ha
  · exact forall_mem_singleton.mpr (.inl (Set.mem_insert t mine))
  · have hset : {u | u ∈ (Instruction.mov t a).defs} = ({t} : Set Temp) :=
      Set.ext fun u => mem_singleton
    rw [hset]
    exact hi t
  · exact .inl (.inr (mem_singleton_self t))

theorem fits_binaryImm (t : Temp) (c : Int64) :
    (Instruction.binaryImm opcode t c).Fits (insert t mine) (known ∪ {t}) :=
  ⟨Instruction.label?_binaryImm opcode t c, rfl, forall_mem_singleton.mpr (.inr rfl),
    forall_mem_singleton.mpr (.inl (Set.mem_insert t mine))⟩

theorem arithmeticImm (c : Int64) (h : SuppliesTemp left mine known) :
    SuppliesTemp (Selection.arithmeticImm opcode name left c) mine known :=
  h.bind fun _ _ _ ha => copyThen ha fun t => fits_binaryImm t c

theorem product (c : Int64) (h : SuppliesTemp left mine known) :
    SuppliesTemp (Selection.product left c) mine known :=
  h.bind fun _ _ _ ha => set (fun t => ⟨rfl, rfl, forall_mem_singleton.mpr ha,
    forall_mem_singleton.mpr (.inl (Set.mem_insert t _))⟩) fun _ => mem_singleton_self _

/-- The right operand finds assigned what the left one has added to. -/
theorem both {γ : Type} {z : Temp → Temp → SelectM γ} {post : γ → Set Temp → Prop}
    (hl : SuppliesTemp left mine known)
    (hr : ∀ known', known ⊆ known' → SuppliesTemp right mine known')
    (hz : ∀ {a b known'}, a ∈ known' → b ∈ known' → Supplies (z a b) mine known' post) :
    Supplies (do let a ← left; let b ← right; z a b) mine known post :=
  hl.bind fun _ _ hsub ha => (hr _ hsub).bind fun _ _ hsub' hb => hz (hsub' ha) hb

theorem arithmetic (hl : SuppliesTemp left mine known)
    (hr : ∀ known', known ⊆ known' → SuppliesTemp right mine known') :
    SuppliesTemp (Selection.arithmetic opcode name left right) mine known := by
  refine both hl hr fun ha hb => copyThen ha fun t =>
    ⟨Instruction.label?_binary opcode t _, rfl, ?_, ?_⟩
  · simp only [Instruction.binary, forall_mem_cons]
    exact ⟨.inr rfl, .inl hb, by simp⟩
  · exact forall_mem_singleton.mpr (.inl (Set.mem_insert t mine))

/-- A remainder goes by way of the registers that divisions write. -/
theorem remainder (hl : SuppliesTemp left mine known)
    (hr : ∀ known', known ⊆ known' → SuppliesTemp right mine known') :
    SuppliesTemp (Selection.remainder left right) mine known := by
  refine both hl hr fun {a b known'} ha hb => ?_
  refine .emit_bind ⟨rfl, rfl, by simpa [Instruction.mov] using ha, ?_⟩
    (.emit_bind ⟨rfl, rfl, ?_, ?_⟩ (.emit_bind ⟨rfl, rfl, ?_, ?_⟩
      (set (fun t => ⟨rfl, rfl, ?_, ?_⟩) fun _ => mem_singleton_self _)))
  · simp [Instruction.mov, clobbers]
  · simp [Instruction.mov, Instruction.cdq]
  · simp [Instruction.cdq, clobbers]
  · simp [Instruction.mov, Instruction.cdq, Instruction.idiv, hb]
  · simp [Instruction.idiv, clobbers]
  · simp [Instruction.mov, Instruction.idiv]
  · exact forall_mem_singleton.mpr (.inl (Set.mem_insert t _))

theorem additive {op : BinOp} (l r : Exp) (hl : SuppliesTemp left mine known)
    (hr : ∀ known', known ⊆ known' → SuppliesTemp right mine known') :
    SuppliesTemp (Selection.additive op opcode l r left right) mine known := by
  unfold Selection.additive
  split
  · exact arithmeticImm _ hl
  · split
    · exact arithmeticImm _ (hr known subset_rfl)
    · exact arithmetic hl hr
  · exact arithmetic hl hr

/-- **Every operator** supplies its value. -/
theorem operation (op : BinOp) (l r : Exp) (hl : SuppliesTemp left mine known)
    (hr : ∀ known', known ⊆ known' → SuppliesTemp right mine known') :
    SuppliesTemp (Selection.operation op l r left right) mine known := by
  unfold Selection.operation
  split
  · exact additive l r hl hr
  · exact additive l r hl hr
  · exact additive l r hl hr
  · exact additive l r hl hr
  · split
    · exact product _ hl
    · exact product _ (hr known subset_rfl)
    · exact arithmetic hl hr
  · exact remainder hl hr

theorem displaced {op : BinOp} (l r : Exp) {whole : SelectM Temp}
    (hl : SuppliesTemp left mine known) (hr : SuppliesTemp right mine known)
    (hwhole : SuppliesTemp whole mine known) :
    Supplies (Selection.displaced op l r left right whole) mine known
      fun a known' => ∀ t ∈ a.base?.toList, t ∈ known' := by
  unfold Selection.displaced
  split
  · exact displace _ hl
  · exact displace _ hr
  · split
    · exact displace 0 hwhole
    · exact displace _ hl
  · exact displace 0 hwhole

end SuppliesTemp

/-- **A pure expression supplies itself** in all three roles, wherever its temps
are assigned. -/
theorem Exp.cover_suppliesFrom {e : Exp} (h : e.isPure = true) (htemps : ∀ t ∈ e.temps, t ∈ known)
    (mine : Set Temp) : e.cover.SuppliesFrom mine known := by
  induction e using Exp.isPure.induct generalizing known mine with
  | case1 c =>
    have hvalue : SuppliesTemp (do
        let t ← fresh "const"
        Selection.emit (.movImm t c)
        return t) mine known :=
      .set (fun t => ⟨rfl, rfl, by simp [Instruction.movImm],
        forall_mem_singleton.mpr (.inl (Set.mem_insert t _))⟩)
        fun _ => mem_singleton_self _
    exact { hvalue.ofValue with address := .pure (by simp) }
  | case2 l =>
    have hvalue : SuppliesTemp (do
        let t ← fresh "name"
        Selection.emit (.movSymbol t l)
        return t) mine known :=
      .set (fun t => ⟨rfl, rfl, by simp [Instruction.movSymbol],
        forall_mem_singleton.mpr (.inl (Set.mem_insert t _))⟩)
        fun _ => mem_singleton_self _
    exact { hvalue.ofValue with
      callee := .pure (by simp [Callee.instruction, Instruction.callDirect]) }
  | case3 t => exact SuppliesTemp.ofValue (.pure (htemps t (mem_singleton_self t)))
  | case4 op l r ihl ihr =>
    rw [isPure, Bool.and_eq_true] at h
    rw [temps_binop, forall_mem_append] at htemps
    have hl := (ihl h.1 htemps.1 mine).value
    have hr : ∀ known', known ⊆ known' → SuppliesTemp r.cover.value mine known' :=
      fun known' hsub => (ihr h.2 (fun t ht => hsub (htemps.2 t ht)) mine).value
    have hwhole := SuppliesTemp.operation op l r hl hr
    exact { hwhole.ofValue with
      address := SuppliesTemp.displaced l r hl (hr known subset_rfl) hwhole }
  | case5 e ih =>
    exact SuppliesTemp.ofValue ((ih h htemps mine).value.bind fun _ _ _ ha =>
      SuppliesTemp.copyThen ha fun t => SuppliesTemp.fits_binaryImm t 1)
  | case6 address ih =>
    have hinner := ih h htemps mine
    have hvalue : SuppliesTemp (do
        let a ← address.cover.address
        let t ← fresh "load"
        Selection.emit (.load t a)
        return t) mine known :=
      hinner.address.bind fun a known' _ ha => SuppliesTemp.set (fun t => ⟨rfl, rfl, ha,
        forall_mem_singleton.mpr (.inl (Set.mem_insert t _))⟩)
        fun _ => mem_singleton_self _
    exact { hvalue.ofValue with
      callee := hinner.address.bind fun a known' _ ha =>
        .pure (by simpa [Callee.instruction, Instruction.callMemory] using ha) }
  | case7 | case8 => cases h

/-- Arguments are supplied all together. -/
theorem Exp.selectAll_supplies {es : List Exp} (h : ∀ e ∈ es, e.isPure = true)
    (htemps : ∀ e ∈ es, ∀ t ∈ e.temps, t ∈ known) (mine : Set Temp) :
    Supplies (Exp.selectAll es) mine known fun ts known' => ∀ t ∈ ts, t ∈ known' := by
  induction es generalizing known with
  | nil => exact .pure (by simp)
  | cons e es ih =>
    rw [forall_mem_cons] at h htemps
    refine (cover_suppliesFrom h.1 htemps.1 mine).value.bind fun t known' hsub ht =>
      (ih h.2 fun e he t ht => hsub (htemps.2 e he t ht)).bind fun ts known'' hsub' hts =>
        .pure (forall_mem_cons.mpr ⟨hsub' ht, hts⟩)

theorem Selection.Callee.fits_instruction {f : Callee} {args : List Temp} {mine : Set Temp}
    (hf : ∀ t ∈ (f.instruction []).uses, t ∈ known) (hargs : ∀ t ∈ args, t ∈ known) :
    (f.instruction args).Fits mine known := by
  cases f with
  | direct l => exact ⟨rfl, rfl, hargs, fun t ht => .inr ht⟩
  | memory a =>
    refine ⟨rfl, rfl, forall_mem_append.mpr ⟨?_, hargs⟩, fun t ht => .inr ht⟩
    exact fun t ht => hf t (mem_append_left _ ht)
  | register u =>
    refine ⟨rfl, rfl, forall_mem_cons.mpr ⟨hf u mem_cons_self, hargs⟩, fun t ht => .inr ht⟩

/-- A call leaves its answer in the first of the registers it writes. -/
theorem Selection.callThrough_supplies {f : Exp} {args : List Exp} (hf : f.isPure = true)
    (hargs : ∀ e ∈ args, e.isPure = true) (htemps : ∀ t ∈ (Exp.call f args).temps, t ∈ known)
    (mine : Set Temp) :
    Supplies (callThrough f.cover.callee (Exp.selectAll args)) mine known
      fun _ known' => .fixed .eax ∈ known' := by
  rw [Exp.temps_call, forall_mem_append] at htemps
  have hflat : ∀ e ∈ args, ∀ t ∈ e.temps, t ∈ known :=
    fun e he t ht => htemps.2 t (mem_flatMap.mpr ⟨e, he, ht⟩)
  refine (Exp.selectAll_supplies hargs hflat mine).bind fun ts known₁ hsub hts => ?_
  refine (Exp.cover_suppliesFrom hf (fun t ht => hsub (htemps.1 t ht)) mine).callee.bind
    fun callee known₂ hsub' hcallee => ?_
  have hfits : (callee.instruction ts).Fits mine known₂ :=
    Callee.fits_instruction hcallee fun t ht => hsub' (hts t ht)
  have hdefs : Temp.fixed .eax ∈ (callee.instruction ts).defs := by
    cases callee <;> exact mem_cons_self
  cases callee <;> exact .emit hfits (.inr hdefs)

/-! ## Statements -/

namespace Footprint

/-- The instructions **trace** the footprint: they place its label and jump to
its targets, and where it is safe, so are they. -/
structure TracedBy (f : Footprint) (is : List Instruction) : Prop where
  labels : labels (is.map Instruction.footprint) = f.label?.toList
  jumps : jumps (is.map Instruction.footprint) = f.targets
  flows : ∀ {promise : Label → Set Temp} {known : Set Temp}, f.Safe promise known →
    Flows promise known (is.map Instruction.footprint) (f.leave promise known)

end Footprint

/-- The selection adds instructions that trace the statement. -/
def Stm.Traces (stm : Stm) (x : SelectM Unit) : Prop :=
  ∀ s : Selection, ∃ s' is, Yields x s () s' ∧ s'.code.instructions = s.code.instructions ++ is ∧
    s.session.DrawsTemps s'.session ∧ stm.footprint.TracedBy is ∧
    ∀ i ∈ is, ∀ t ∈ i.defs, t ∈ stm.footprint.writes ∨ s'.session.Owns t

namespace Stm.Traces

variable {stm : Stm} {x : SelectM Unit}

/-- What the statement reads is enough to select straight code for it. -/
theorem straight (hlabel : stm.footprint.label? = none) (htargets : stm.footprint.targets = [])
    (h : Supplies x {t | t ∈ stm.footprint.writes} {t | t ∈ stm.footprint.reads}
      fun _ known' => ∀ t ∈ stm.footprint.writes, t ∈ known') : stm.Traces x := by
  intro s
  obtain ⟨_, s', is, known', hx, his, hdraws, hcode, hsub, hwrites, hpost⟩ := h s
  refine ⟨s', is, hx, his, hdraws, ⟨?_, ?_, fun {promise known} hsafe => ?_⟩, hwrites⟩
  · rw [hcode.labels_eq, hlabel]
    rfl
  · rw [hcode.jumps_eq, htargets]
  · have hreads : {t | t ∈ stm.footprint.reads} ∪ known = known :=
      Set.union_eq_right.mpr fun t ht => hsafe.arrives (hsafe.reads t ht)
    refine (hreads ▸ hcode.flows promise known).weaken ?_
    rw [leave, arrive_of_none hlabel, Set.union_comm known]
    exact Set.union_subset_union_left known hpost

/-- Straight code that reads what the statement reads, then a jump. -/
theorem branch (stm : Stm) (opcode : Opcode) {target : Label}
    (hlabel : stm.footprint.label? = none) (htargets : stm.footprint.targets = [target])
    (hwrites : stm.footprint.writes = [])
    (h : Supplies x ∅ {t | t ∈ stm.footprint.reads} fun _ _ => True) :
    stm.Traces (do x; emit (.jump opcode target)) := by
  have hplain : (Instruction.jump opcode target).label? = none := by cases opcode <;> rfl
  intro s
  obtain ⟨_, s', is, known', hx, his, hdraws, hcode, hsub, howns, -⟩ := h s
  refine ⟨_, is ++ [.jump opcode target], yields_bind.mpr ⟨(), s', hx, rfl⟩, ?_, hdraws,
    ⟨?_, ?_, fun {promise known} hsafe => ?_⟩, ?_⟩
  · show s'.code.instructions ++ _ = _
    rw [his, append_assoc]
  · rw [map_append, labels_append, hcode.labels_eq, nil_append, hlabel, labels_code,
      filterMap_cons_none hplain]
    rfl
  · rw [map_append, jumps_append, hcode.jumps_eq, htargets]
    rfl
  · have hreads : {t | t ∈ stm.footprint.reads} ∪ known = known :=
      Set.union_eq_right.mpr fun t ht => hsafe.arrives (hsafe.reads t ht)
    have hknown : stm.footprint.leave promise known = known := by
      rw [leave, arrive_of_none hlabel, hwrites]
      simp
    have hjump : (Instruction.jump opcode target).footprint.Safe promise known :=
      safe_of_none hplain (fun t ht => by cases ht) fun l hl => by
        refine ((hsafe.targets l (htargets ▸ hl)).trans_eq hknown).trans ?_
        rw [leave, arrive_of_none hplain]
        exact Set.subset_union_left
    rw [map_append, hknown]
    refine ((hreads ▸ hcode.flows promise known).weaken Set.subset_union_right).append
      ((Flows.singleton hjump).weaken ?_)
    rw [leave, arrive_of_none hplain]
    exact Set.subset_union_left
  · refine forall_mem_append.mpr ⟨fun i hi t ht => .inr ?_, by simp [Instruction.jump]⟩
    exact (howns i hi t ht).resolve_left (Set.notMem_empty t)

/-- A move into a temp. -/
theorem move_temp (d : Temp) {src : Exp} (h : src.isCanonicalSource = true) :
    (Stm.move (.temp d) src).Traces (selectMove (.temp d) src) := by
  have hdefs {i : Instruction} (hi : i.defs = [d]) {known : Set Temp} :
      ∀ t ∈ [d], t ∈ known ∪ {t | t ∈ i.defs} :=
    fun t ht => .inr (hi ▸ ht)
  refine straight rfl rfl ?_
  -- the patterns that take the value by way of a temp of its own
  have hcopy (hpure : src.isPure = true) (hselect : selectMove (.temp d) src
        = src.cover.value >>= fun t => emit (.mov d t)) :
      Supplies (selectMove (.temp d) src) {t | t ∈ [d]} {t | t ∈ src.temps}
        fun _ known' => ∀ t ∈ [d], t ∈ known' := by
    rw [hselect]
    refine (Exp.cover_suppliesFrom hpure (fun t ht => ht) _).value.bind fun t known' _ ht => ?_
    exact .emit ⟨rfl, rfl, forall_mem_singleton.mpr ht, fun t ht => .inl ht⟩ (hdefs rfl)
  cases src with
  | const c => exact .emit ⟨rfl, rfl, by simp [Instruction.movImm], fun t ht => .inl ht⟩ (hdefs rfl)
  | name l =>
    exact .emit ⟨rfl, rfl, by simp [Instruction.movSymbol], fun t ht => .inl ht⟩ (hdefs rfl)
  | mem a =>
    have ha : a.cover.SuppliesFrom {t | t ∈ [d]} {t | t ∈ a.temps} :=
      Exp.cover_suppliesFrom (e := a) h (fun t ht => ht) _
    refine ha.address.bind fun a known' _ ha => ?_
    exact .emit ⟨rfl, rfl, ha, fun t ht => .inl ht⟩ (hdefs rfl)
  | call f args =>
    rw [Exp.isCanonicalSource, Bool.and_eq_true, all_eq_true] at h
    refine (callThrough_supplies h.1 h.2 (fun t ht => ht) _).bind fun _ known' _ heax => ?_
    exact .emit ⟨rfl, rfl, forall_mem_singleton.mpr heax, fun t ht => .inl ht⟩ (hdefs rfl)
  | temp | binop | not => exact hcopy h rfl
  | eseq s e => cases h

/-- A store reads the value before the address. -/
theorem move_mem {address src : Exp} (haddress : address.isPure = true) (hsrc : src.isPure = true) :
    (Stm.move (.mem address) src).Traces (selectMove (.mem address) src) := by
  refine straight rfl rfl ?_
  refine (Exp.cover_suppliesFrom hsrc (fun t ht => ?_) _).value.bind fun t known₁ hsub ht =>
    (Exp.cover_suppliesFrom haddress (fun t ht => ?_) _).address.bind fun a known₂ hsub' ha => ?_
  · exact mem_append_right _ ht
  · exact hsub (mem_append_left _ ht)
  · exact .emit ⟨rfl, rfl, forall_mem_cons.mpr ⟨hsub' ht, ha⟩, fun t ht => by cases ht⟩
      fun t ht => by cases ht

/-- An expression for nothing but what it does. -/
theorem exp {e : Exp} (h : e.isCanonicalSource = true) : (Stm.exp e).Traces (Stm.exp e).select := by
  refine straight rfl rfl ?_
  have hdrop (hpure : e.isPure = true)
      (hselect : (Stm.exp e).select = e.cover.value >>= fun _ => pure ()) :
      Supplies (Stm.exp e).select {t | t ∈ []} {t | t ∈ e.temps}
        fun _ known' => ∀ t ∈ [], t ∈ known' := by
    rw [hselect]
    exact (Exp.cover_suppliesFrom hpure (fun t ht => ht) _).value.bind fun _ _ _ _ =>
      .pure (by simp)
  cases e with
  | call f args =>
    rw [Exp.isCanonicalSource, Bool.and_eq_true, all_eq_true] at h
    exact (callThrough_supplies h.1 h.2 (fun t ht => ht) _).imp fun _ _ _ _ => by
      simp [Stm.footprint]
  | const | name | temp | binop | not | mem => exact hdrop h rfl
  | eseq s e => cases h

/-- A branch compares, with a constant if there is one. -/
theorem cjump (rel : RelOp) {l r : Exp} (hl : l.isPure = true) (hr : r.isPure = true)
    (target : Label) : (Stm.cjump rel l r target).Traces (selectBranch rel l r target) := by
  have hleft : ∀ t ∈ l.temps, t ∈ {t | t ∈ l.temps ++ r.temps} := fun t ht => mem_append_left _ ht
  have hright : ∀ t ∈ r.temps, t ∈ {t | t ∈ l.temps ++ r.temps} := fun t ht => mem_append_right _ ht
  -- one operand in a temp, the other an immediate
  have himm {e : Exp} (he : e.isPure = true)
      (htemps : ∀ t ∈ e.temps, t ∈ {t | t ∈ l.temps ++ r.temps}) (opcode : Opcode) (c : Int64) :
      (Stm.cjump rel l r target).Traces (do
        emit (.cmpImm (← e.select) c)
        emit (.jump opcode target)) := by
    have hcompare := branch (.cjump rel l r target) opcode rfl rfl rfl
      ((Exp.cover_suppliesFrom he htemps ∅).value.bind fun t _ _ ht =>
        .emit (i := .cmpImm t c) ⟨rfl, rfl, forall_mem_singleton.mpr ht, by
          simp [Instruction.cmpImm]⟩ trivial)
    rwa [bind_assoc] at hcompare
  unfold selectBranch
  split
  · exact himm hl hleft _ _
  · exact himm hr hright _ _
  · have hcompare := branch (.cjump rel l r target) (Selection.branch rel) rfl rfl rfl
      (SuppliesTemp.both (Exp.cover_suppliesFrom hl hleft ∅).value
        (fun known' hsub => (Exp.cover_suppliesFrom hr (fun t ht => hsub (hright t ht)) ∅).value)
        fun {a b known'} ha hb => .emit (i := .cmp a b) ⟨rfl, rfl, by
          simpa [Instruction.cmp] using ⟨ha, hb⟩, by simp [Instruction.cmp]⟩ trivial)
    simp only [bind_assoc] at hcompare
    exact hcompare

end Stm.Traces

/-- **Selection traces every plain, canonical statement.** -/
theorem Stm.select_traces {stm : Stm} (hplain : stm.isPlain = true)
    (hcanonical : stm.isCanonical = true) : stm.Traces stm.select := by
  cases stm with
  | seq a b => cases hplain
  | label l =>
    refine fun s => ⟨_, [.label l], rfl, rfl, .refl _, ⟨rfl, rfl, fun hsafe => ?_⟩, by
      simp [Instruction.label]⟩
    exact .singleton ⟨hsafe.arrives, fun t ht => absurd ht not_mem_nil, fun _ => rfl,
        by simp [Instruction.footprint, Instruction.label]⟩
  | jump l =>
    have hjump := Traces.branch (.jump l) .jmp (x := pure ()) rfl rfl rfl (.pure trivial)
    rwa [pure_bind] at hjump
  | cjump rel l r target =>
    rw [isCanonical, Bool.and_eq_true] at hcanonical
    exact .cjump rel hcanonical.1 hcanonical.2 target
  | exp e => exact .exp hcanonical
  | move dst src =>
    cases dst with
    | temp d => exact .move_temp d hcanonical
    | mem address =>
      rw [isCanonical, Bool.and_eq_true] at hcanonical
      · exact .move_mem hcanonical.1 hcanonical.2
      · exact fun t ht => by cases ht
    | const | name | binop | not | call | eseq => cases hplain

/-! ## Bodies -/

/-- The code **traces** the body, statement by statement. -/
structure Body.TracedBy (body : List Stm) (is : List Instruction) : Prop where
  labels : Footprint.labels (is.map Instruction.footprint)
    = Footprint.labels (body.map Stm.footprint)
  jumps : Footprint.jumps (is.map Instruction.footprint) = Footprint.jumps (body.map Stm.footprint)
  flows : ∀ {promise : Label → Set Temp} {known known' : Set Temp},
    Flows promise known (body.map Stm.footprint) known' →
    Flows promise known (is.map Instruction.footprint) known'

/-- Statements that selection has a pattern for, canonical ones. -/
def Body.Selectable (body : List Stm) : Prop :=
  ∀ stm ∈ body, stm.isPlain = true ∧ stm.isCanonical = true

namespace Selection

/-- **The code of a body traces it**, statement by statement. -/
theorem stms_traces {body : List Stm} (h : Body.Selectable body) (s : Selection) :
    ∃ s' is, Yields (stms body) s () s' ∧ s'.code.instructions = s.code.instructions ++ is ∧
      s.session.DrawsTemps s'.session ∧ Body.TracedBy body is ∧
      ∀ i ∈ is, ∀ t ∈ i.defs, (∃ stm ∈ body, t ∈ stm.footprint.writes) ∨ s'.session.Owns t := by
  induction body generalizing s with
  | nil =>
    exact ⟨s, [], yields_pure.mpr ⟨rfl, rfl⟩, (append_nil _).symm, .refl _,
      ⟨rfl, rfl, fun h => h⟩, by simp⟩
  | cons stm body ih =>
    rw [Body.Selectable, forall_mem_cons] at h
    obtain ⟨s₁, is, hstm, his, hdraws, htraced, hwrites⟩ := Stm.select_traces h.1.1 h.1.2 s
    obtain ⟨s₂, js, hbody, hjs, hdraws', htraced', hwrites'⟩ := ih h.2 s₁
    refine ⟨s₂, is ++ js, yields_bind.mpr ⟨(), s₁, hstm, hbody⟩, ?_, hdraws.trans hdraws',
      ⟨?_, ?_, fun {promise known known'} hflows => ?_⟩,
      forall_mem_append.mpr ⟨fun i hi t ht => ?_, fun i hi t ht => ?_⟩⟩
    · rw [hjs, his, append_assoc]
    · rw [map_append, labels_append, htraced.labels, htraced'.labels, map_cons, labels_cons]
    · rw [map_append, jumps_append, htraced.jumps, htraced'.jumps, map_cons, jumps_cons]
    · obtain _ | ⟨hsafe, hrest⟩ := hflows
      rw [map_append]
      exact (htraced.flows hsafe).append (htraced'.flows hrest)
    · exact (hwrites i hi t ht).imp (fun h => ⟨stm, mem_cons_self, h⟩) fun h => h.mono hdraws'.le
    · refine (hwrites' i hi t ht).imp_left ?_
      rintro ⟨stm', hstm', ht⟩
      exact ⟨stm', mem_cons_of_mem _ hstm', ht⟩

/-- What is selected is the code, whatever the count of instructions. -/
theorem yields_run {α : Type} {x : SelectM α} {s : Session} {r : α} {t : Selection}
    (h : Yields x { session := s } r t) :
    ∃ s', Yields (run x) s (r, t.code) s' ∧ t.session.DrawsTemps s' := by
  have hx : x.run.run { session := s } = (.ok r, t) := h
  refine ⟨((run x).run.run s).2, Prod.ext ?_ rfl, ?_, ?_, ?_⟩
  · show (x.run.run { session := s }).1.map (·, (x.run.run { session := s }).2.code) = _
    rw [hx]
    rfl
  · show _ ≤ (x.run.run { session := s }).2.session.tempCount
    rw [hx]
  · show (x.run.run { session := s }).2.session.labels = _
    rw [hx]
  · show (x.run.run { session := s }).2.session.config = _
    rw [hx]

/-- **Selection never fails** on plain, canonical statements. The code of a method
is code that traces its body, between its entry and its exit. -/
theorem ofMethod_traces {body : List Stm} (h : Body.Selectable body) (entry exit : List Temp)
    (s : Session) :
    ∃ code s' is, Yields (ofMethod body entry exit) s code s' ∧
      code.instructions = .enter entry :: (is ++ [.ret exit]) ∧ s.DrawsTemps s' ∧
      Body.TracedBy body is ∧
      ∀ i ∈ is, ∀ t ∈ i.defs, (∃ stm ∈ body, t ∈ stm.footprint.writes) ∨ s'.Owns t := by
  let start : Selection := { session := s, code := { instructions := [.enter entry] } }
  obtain ⟨s₁, is, hbody, his, hdraws, htraced, hwrites⟩ := stms_traces h start
  have hselect : ∃ t, Yields (do emit (.enter entry); stms body; emit (.ret exit)) { session := s }
      () t ∧ t.session = s₁.session
      ∧ t.code.instructions = s₁.code.instructions ++ [.ret exit] :=
    ⟨_, yields_bind.mpr ⟨(), start, rfl, yields_bind.mpr ⟨(), s₁, hbody, rfl⟩⟩, rfl, rfl⟩
  obtain ⟨t, ht, hsession, hcode⟩ := hselect
  obtain ⟨s', hrun, hdraws'⟩ := yields_run ht
  rw [hsession] at hdraws'
  refine ⟨_, s', is, yields_bind.mpr ⟨_, s', hrun, yields_pure.mpr ⟨rfl, rfl⟩⟩, ?_,
    hdraws.trans hdraws', htraced, fun i hi t ht => (hwrites i hi t ht).imp_right ?_⟩
  · rw [hcode, his]
    rfl
  · exact fun h => h.mono hdraws'.le

end Selection

end TreeBackend
