import TreeBackend.Proofs.DefiniteAssignment
import TreeBackend.Proofs.LoweredMethods

/-!
# Trees that read what is assigned

Lowering builds trees part by part, and which temps are assigned where a part is
evaluated is known when the part is built. What its labels have to promise is
known only after canonicalization, for holders are assigned around it: whatever
is assigned before the part stays assigned throughout, and belongs to every
promise.

So a part is judged wherever *at least* some temps are assigned, and the promises
for its labels are chosen then (`Body.Assigns`). The choice concerns the part's
own labels only. Where the part leaves for a label of another part, that label
may promise what was assigned before the part, and no more.
-/

namespace TreeBackend

open List Footprint

/-! ## Code -/

/-- What labels promise: the temps that are assigned where control comes to
them. -/
abbrev Promises := List (Label × Set Temp)

/-- The promises are those that were chosen. -/
def Promises.KeptBy (given : Promises) (promise : Label → Set Temp) : Prop :=
  ∀ g ∈ given, promise g.1 = g.2

/-- Promises are kept if both lists of them are. -/
theorem Promises.keptBy_append {given given' : Promises} {promise : Label → Set Temp} :
    KeptBy (given ++ given') promise ↔ given.KeptBy promise ∧ given'.KeptBy promise :=
  forall_mem_append

/-- **The code assigns** temps: wherever `known` is assigned, it reads only what is
assigned, and `gained` is assigned after it. The promises of its labels are
chosen to fit, and the labels of `exits` promise nothing that was not assigned
before it. -/
def Body.Assigns (known : Set Temp) (code : List Stm) (exits : List Label) (gained : Set Temp) :
    Prop :=
  ∀ all, known ⊆ all → ∃ (given : Promises) (all' : Set Temp),
    (given.map Prod.fst).Perm (labels code) ∧ all ⊆ all' ∧ gained ⊆ all' ∧
      ∀ promise, given.KeptBy promise → (∀ l ∈ exits, promise l ⊆ all) →
        Flows promise all (code.map Stm.footprint) all'

namespace Footprint.Flows

variable {promise : Label → Set Temp} {known known' : Set Temp} {fs : List Footprint} {l : Label}

/-- At a label its promise is what is assigned. -/
theorem label (h : promise l ⊆ known) (rest : Flows promise (promise l) fs known') :
    Flows promise known ((Stm.label l).footprint :: fs) known' :=
  .cons ⟨h, nofun, fun _ => rfl, nofun⟩ (rest.mono Set.subset_union_left)

/-- A jump or a branch goes where no more is promised than what is assigned. -/
theorem exit {stm : Stm} (hlabel : stm.placed? = none) (htarget : stm.target? = some l)
    (hreads : ∀ t ∈ stm.footprint.reads, t ∈ known) (h : promise l ⊆ known)
    (rest : Flows promise known fs known') : Flows promise known (stm.footprint :: fs) known' := by
  have hplain : stm.footprint.label? = none := stm.footprint_label?.trans hlabel
  have hleave : known ⊆ stm.footprint.leave promise known := by
    rw [leave, arrive_of_none hplain]
    exact Set.subset_union_left
  refine .cons (safe_of_none hplain hreads fun l' hl' => ?_) (rest.mono hleave)
  rw [stm.footprint_targets, htarget] at hl'
  obtain rfl := mem_singleton.mp hl'
  exact h.trans hleave

/-- A jump needs what its label promises. -/
theorem jump (h : promise l ⊆ known) (rest : Flows promise known fs known') :
    Flows promise known ((Stm.jump l).footprint :: fs) known' :=
  exit rfl rfl nofun h rest

/-- A temp is set to a constant. -/
theorem set {t : Temp} {x : Int64} (rest : Flows promise (known ∪ {t}) fs known') :
    Flows promise known ((Stm.move (.temp t) (.const x)).footprint :: fs) known' :=
  .cons (safe_of_none rfl nofun nofun)
    (rest.mono (Set.union_subset_union_right known fun _ ht => mem_singleton.mpr ht))

end Footprint.Flows

namespace Body.Assigns

variable {known known' gained gained' : Set Temp} {code code' test no yes turn : List Stm}
  {exits : List Label} {t : Temp} {x y : Int64} {l₀ l₁ done again body : Label}

protected theorem nil (known : Set Temp) (exits : List Label) : Assigns known [] exits known :=
  fun all hsub => ⟨[], all, .nil, subset_rfl, hsub, fun _ _ _ => .nil subset_rfl⟩

/-- Code that reads less than is assigned may run there. -/
theorem mono (h : Assigns known code exits gained) (hsub : known ⊆ known') :
    Assigns known' code exits gained := fun all hall => h all (hsub.trans hall)

theorem weaken (h : Assigns known code exits gained) (hsub : gained' ⊆ gained) :
    Assigns known code exits gained' := by
  intro all hall
  obtain ⟨given, all', hperm, hle, hgained, hflows⟩ := h all hall
  exact ⟨given, all', hperm, hle, hsub.trans hgained, hflows⟩

/-- More exits may be allowed for. -/
theorem leave {exits' : List Label} (h : Assigns known code exits gained) (hsub : exits ⊆ exits') :
    Assigns known code exits' gained := by
  intro all hall
  obtain ⟨given, all', hperm, hle, hgained, hflows⟩ := h all hall
  exact ⟨given, all', hperm, hle, hgained,
    fun promise hkept hexits => hflows promise hkept fun l hl => hexits l (hsub hl)⟩

/-- What the first code gains is assigned for the second. -/
protected theorem append (h : Assigns known code exits gained)
    (h' : Assigns (known ∪ gained) code' exits gained') :
    Assigns known (code ++ code') exits (gained ∪ gained') := by
  intro all hall
  obtain ⟨given, all', hperm, hle, hgained, hflows⟩ := h all hall
  obtain ⟨given', all'', hperm', hle', hgained', hflows'⟩ :=
    h' all' (Set.union_subset (hall.trans hle) hgained)
  refine ⟨given ++ given', all'', ?_, hle.trans hle',
    Set.union_subset (hgained.trans hle') hgained', fun promise hkept hexits => ?_⟩
  · rw [map_append, labels_append]
    exact hperm.append hperm'
  · rw [Promises.keptBy_append] at hkept
    rw [map_append]
    exact (hflows promise hkept.1 hexits).append
      (hflows' promise hkept.2 fun l hl => (hexits l hl).trans hle)

/-- A statement without a label that goes nowhere. -/
protected theorem single {stm : Stm} (hlabel : stm.placed? = none) (htarget : stm.target? = none)
    (hreads : ∀ t ∈ stm.footprint.reads, t ∈ known) :
    Assigns known [stm] [] {t | t ∈ stm.footprint.writes} := by
  intro all hall
  refine ⟨[], all ∪ {t | t ∈ stm.footprint.writes}, ?_, Set.subset_union_left,
    Set.subset_union_right, fun promise _ _ => ?_⟩
  · rw [labels, filterMap_cons_none hlabel]
    rfl
  · have hplain : stm.footprint.label? = none := stm.footprint_label?.trans hlabel
    have hsafe : stm.footprint.Safe promise all := safe_of_none hplain
      (fun t ht => hall (hreads t ht)) (by simp [stm.footprint_targets, htarget])
    refine (Flows.singleton hsafe).weaken ?_
    rw [Footprint.leave, arrive_of_none hplain]

/-- One more statement, that reads what was gained. -/
protected theorem snoc (h : Assigns known code [] gained) (stm : Stm) (hlabel : stm.placed? = none)
    (htarget : stm.target? = none) (hreads : ∀ t ∈ stm.footprint.reads, t ∈ gained) :
    Assigns known (code ++ [stm]) [] {t | t ∈ stm.footprint.writes} :=
  (h.append (.single hlabel htarget fun t ht => .inr (hreads t ht))).weaken Set.subset_union_right

/-- A branch leaves for its target. -/
protected theorem branch {rel : RelOp} {l r : Exp} (hreads : ∀ t ∈ l.temps ++ r.temps, t ∈ known)
    (target : Label) : Assigns known [.cjump rel l r target] [target] ∅ := by
  intro all hall
  refine ⟨[], all, .nil, subset_rfl, Set.empty_subset all, fun promise _ hexits => ?_⟩
  exact .exit rfl rfl (fun t ht => hall (hreads t ht)) (hexits target mem_cons_self)
    (.nil subset_rfl)

/-- A branch around a jump leaves for the target of the jump. -/
protected theorem around {skip : Label} (h : Assigns known test [skip] ∅) (target : Label) :
    Assigns known (test ++ [.jump target, .label skip]) [target] ∅ := by
  intro all hall
  obtain ⟨given, all', hperm, hle, -, hflows⟩ := h all hall
  refine ⟨given ++ [(skip, all)], all, ?_, subset_rfl, Set.empty_subset all,
    fun promise hkept hexits => ?_⟩
  · rw [map_append, labels_append]
    exact hperm.append_right [skip]
  · rw [Promises.keptBy_append] at hkept
    have hskip : promise skip = all := hkept.2 _ mem_cons_self
    have htarget : promise target ⊆ all := hexits target mem_cons_self
    rw [map_append]
    refine (hflows promise hkept.1 ?_).append (.jump (htarget.trans hle) (.label ?_ (.nil ?_)))
    · simp [hskip]
    · rwa [hskip]
    · rw [hskip]

/-- **A choice** assigns the temp that is chosen for. -/
protected theorem choice (h : Assigns known test [l₀, l₁] ∅) (t : Temp) (x y : Int64)
    (done : Label) :
    Assigns known (test ++ Body.choice t x y l₀ l₁ done) [] {t} := by
  intro all hall
  obtain ⟨given, all', hperm, hle, -, hflows⟩ := h all hall
  -- the temp is set on both ways, so it may be promised where they meet
  refine ⟨given ++ [(l₀, all), (l₁, all), (done, all ∪ {t})], all ∪ {t}, ?_, Set.subset_union_left,
    Set.subset_union_right, fun promise hkept _ => ?_⟩
  · rw [map_append, labels_append]
    exact hperm.append_right [l₀, l₁, done]
  · rw [Promises.keptBy_append] at hkept
    have hl₀ : promise l₀ = all := hkept.2 (l₀, all) (by simp)
    have hl₁ : promise l₁ = all := hkept.2 (l₁, all) (by simp)
    have hdone : promise done = all ∪ {t} := hkept.2 (done, all ∪ {t}) (by simp)
    rw [map_append]
    refine (hflows promise hkept.1 ?_).append (.label ?_ (.set (.jump ?_ (.label ?_
      (.set (.label ?_ (.nil ?_)))))))
    · simp [hl₀, hl₁]
    · rwa [hl₀]
    · rw [hdone, hl₀]
    · rw [hl₁, hl₀]
      exact Set.subset_union_left
    · rw [hdone, hl₁]
    · rw [hdone]

/-- **On either way** of a conditional everything stays assigned. -/
protected theorem conditional (htest : Assigns known test [l₁] ∅) (hno : Assigns known no [] ∅)
    (hyes : Assigns known yes [] ∅) :
    Assigns known (Body.conditional test no yes l₀ l₁ done) [] ∅ := by
  intro all hall
  obtain ⟨given, all₁, hperm, hle, -, hflows⟩ := htest all hall
  obtain ⟨given₀, all₂, hperm₀, hle₀, -, hflows₀⟩ := hno all hall
  obtain ⟨given₁, all₃, hperm₁, hle₁, -, hflows₁⟩ := hyes all hall
  -- what one way gains the other may not, so the labels promise what was there before
  refine ⟨given ++ given₀ ++ given₁ ++ [(l₀, all), (l₁, all), (done, all)], all, ?_, subset_rfl,
    Set.empty_subset all, fun promise hkept _ => ?_⟩
  · rw [perm_iff_count] at hperm hperm₀ hperm₁ ⊢
    intro l
    simp only [map_append, count_append, labels_conditional, hperm, hperm₀, hperm₁,
      map_cons, map_nil, count_cons, count_nil]
    omega
  · simp only [Promises.keptBy_append] at hkept
    obtain ⟨⟨⟨hkept, hkept₀⟩, hkept₁⟩, hkept₂⟩ := hkept
    have hl₀ : promise l₀ = all := hkept₂ (l₀, all) (by simp)
    have hl₁ : promise l₁ = all := hkept₂ (l₁, all) (by simp)
    have hdone : promise done = all := hkept₂ (done, all) (by simp)
    have htests := hflows promise hkept (by simp [hl₁])
    have hnos := hflows₀ promise hkept₀ nofun
    have hyess := hflows₁ promise hkept₁ nofun
    rw [Body.conditional]
    simp only [map_append, map_cons, map_nil, cons_append, append_assoc]
    refine htests.append (.label ?_ (.append (hl₀ ▸ hnos) (.jump ?_ (.label ?_
      (.append (hl₁ ▸ hyess) (.jump ?_ (.label ?_ (.nil ?_))))))))
    · rwa [hl₀]
    · rwa [hdone]
    · rwa [hl₁]
    · rwa [hdone]
    · rwa [hdone]
    · rw [hdone]

/-- **In every turn** of a loop everything stays assigned. -/
protected theorem loop (htest : Assigns known test [body] ∅) (hturn : Assigns known turn [] ∅) :
    Assigns known (Body.loop test turn again body done) [] ∅ := by
  intro all hall
  obtain ⟨given, all₁, hperm, hle, -, hflows⟩ := htest all hall
  obtain ⟨given₁, all₂, hperm₁, hle₁, -, hflows₁⟩ := hturn all hall
  refine ⟨given ++ given₁ ++ [(again, all), (body, all), (done, all)], all, ?_, subset_rfl,
    Set.empty_subset all, fun promise hkept _ => ?_⟩
  · rw [perm_iff_count] at hperm hperm₁ ⊢
    intro l
    simp only [map_append, count_append, labels_loop, hperm, hperm₁, map_cons,
      map_nil, count_cons, count_nil]
    omega
  · simp only [Promises.keptBy_append] at hkept
    obtain ⟨⟨hkept, hkept₁⟩, hkept₂⟩ := hkept
    have hagain : promise again = all := hkept₂ (again, all) (by simp)
    have hbody : promise body = all := hkept₂ (body, all) (by simp)
    have hdone : promise done = all := hkept₂ (done, all) (by simp)
    have htests := hflows promise hkept (by simp [hbody])
    have hturns := hflows₁ promise hkept₁ nofun
    rw [Body.loop]
    simp only [map_append, map_cons, map_nil, cons_append, append_assoc, nil_append]
    refine .label ?_ (.append (hagain ▸ htests) (.jump ?_ (.label ?_ (.append (hbody ▸ hturns)
      (.jump ?_ (.label ?_ (.nil ?_)))))))
    · rw [hagain]
    · rwa [hdone]
    · rwa [hbody]
    · rwa [hagain]
    · rwa [hdone]
    · rw [hdone]

end Body.Assigns

/-! ## Parts of expressions -/

/-- The parts **supply** a value: their code assigns the temps of the value. -/
def Staged.Supplies (known : Set Temp) (p : Staged) : Prop :=
  Body.Assigns known p.code [] {t | t ∈ p.value.temps}

namespace Staged

variable {known : Set Temp} {p q : Staged} {ps qs : List Staged} {a b : Session}

/-- A holder is assigned where its value was supplied. -/
theorem Supplies.held (h : p.Supplies known) (k : Nat) : (p.held k).Supplies known := by
  unfold Supplies
  rw [code_held]
  exact Body.Assigns.snoc h _ rfl rfl fun _ ht => ht

theorem Supplies.holdCall (h : p.Supplies known) (hq : p.holdCall.run a = (q, b)) :
    q.Supplies known := by
  obtain ⟨-, rfl, -⟩ | ⟨-, rfl, -⟩ := holdCall_cases hq
  · exact h.held _
  · exact h

theorem Supplies.protect {later : Bool} (h : p.Supplies known)
    (hq : (p.protect later).run a = (q, b)) : q.Supplies known := by
  obtain ⟨rfl, -⟩ | ⟨-, rfl, -⟩ := protect_cases hq
  · exact h.held _
  · exact h

/-- Two operands, one after the other. -/
theorem Supplies.pair (h : p.Supplies known) (h' : q.Supplies known) :
    Body.Assigns known ((p.effects ++ q.effects).flatMap Stm.linear) []
      {t | t ∈ p.value.temps ++ q.value.temps} := by
  rw [flatMap_append]
  refine (Body.Assigns.append h (h'.mono Set.subset_union_left)).weaken fun t ht => ?_
  exact mem_append.mp ht

/-- Operands, each of which supplies its value. -/
theorem supplies_all (h : ∀ p ∈ ps, p.Supplies known) :
    Body.Assigns known (ps.flatMap code) [] {t | t ∈ ps.flatMap fun p => p.value.temps} := by
  induction ps with
  | nil => exact (Body.Assigns.nil known []).weaken nofun
  | cons p ps ih =>
    rw [forall_mem_cons] at h
    refine (Body.Assigns.append h.1 ((ih h.2).mono Set.subset_union_left)).weaken fun t ht => ?_
    exact mem_append.mp ht

end Staged

/-! ## Expressions -/

/-- The statements **assign** temps, in canonical form. -/
def Stm.Assigns (known : Set Temp) (stms : List Stm) (exits : List Label) (gained : Set Temp) :
    Prop :=
  ∀ ⦃a b : Session⦄ ⦃code : List Stm⦄, Renders stms a code b → Body.Assigns known code exits gained

/-- The expression can be **read** wherever `known` is assigned. -/
def Exp.Readable (known : Set Temp) (e : Exp) : Prop :=
  ∀ ⦃a b : Session⦄ ⦃p : Staged⦄, Yields e.stage a p b → p.Supplies known

namespace Exp.Readable

variable {known gained : Set Temp} {e l r : Exp} {a b : Session} {q : Staged}

/-- A readable expression supplies its value. -/
theorem stagePure (h : e.Readable known) (hq : Yields e.stagePure a q b) : q.Supplies known := by
  obtain ⟨p, u, hp, hq⟩ := yields_stagePure.mp hq
  exact (h hp).holdCall hq

theorem mono {known' : Set Temp} (h : e.Readable known) (hsub : known ⊆ known') :
    e.Readable known' :=
  fun _ _ _ hp => (h hp).mono hsub

/-- What needs no statements is its own value. -/
theorem of_value (hstage : ∀ a, Yields e.stage a (.ofValue e) a) (h : ∀ t ∈ e.temps, t ∈ known) :
    e.Readable known := by
  intro a b p hp
  obtain ⟨rfl, -⟩ := hp.unique (hstage a)
  exact (Body.Assigns.nil known []).weaken h

theorem const (n : Int64) : (Exp.const n).Readable known := .of_value (fun _ => rfl) nofun

theorem name (l : Label) : (Exp.name l).Readable known := .of_value (fun _ => rfl) nofun

theorem temp {t : Temp} (ht : t ∈ known) : (Exp.temp t).Readable known :=
  .of_value (fun _ => rfl) (forall_mem_singleton.mpr ht)

theorem binop (op : BinOp) (hl : l.Readable known) (hr : r.Readable known) :
    (Exp.binop op l r).Readable known := by
  intro a b p hp
  obtain ⟨q₁, u, q₂, v, q, hq₁, hq₂, hq, rfl⟩ := yields_stage_binop.mp hp
  refine (((hl.stagePure hq₁).protect hq).pair (hr.stagePure hq₂)).weaken ?_
  rw [temps_binop]

theorem not (h : e.Readable known) : (Exp.not e).Readable known := by
  intro a b p hp
  obtain ⟨q, hq, rfl⟩ := yields_stage_not.mp hp
  exact (h.stagePure hq :)

theorem mem (h : e.Readable known) : (Exp.mem e).Readable known := by
  intro a b p hp
  obtain ⟨q, hq, rfl⟩ := yields_stage_mem.mp hp
  exact (h.stagePure hq :)

theorem stageAll {es : List Exp} (h : ∀ e ∈ es, e.Readable known) {ps : List Staged}
    (hps : Yields (Exp.stageAll es) a ps b) : ∀ p ∈ ps, p.Supplies known := by
  induction es generalizing a ps with
  | nil =>
    obtain ⟨rfl, -⟩ := yields_pure.mp hps
    exact nofun
  | cons e es ih =>
    rw [forall_mem_cons] at h
    obtain ⟨q, u, qs, hq, hqs, rfl⟩ := yields_stageAll_cons.mp hps
    exact forall_mem_cons.mpr ⟨stagePure h.1 hq, ih h.2 hqs⟩

theorem call {f : Exp} {args : List Exp} (hf : f.Readable known)
    (hargs : ∀ e ∈ args, e.Readable known) : (Exp.call f args).Readable known := by
  intro a b p hp
  obtain ⟨q₁, u, ps, v, q, qs, hq₁, hps, hqs, rfl⟩ := yields_stage_call.mp hp
  have hall := Staged.supplies_all (Staged.forall_protectAll (P := Staged.Supplies known)
    (fun hp _ => hp.held _) (forall_mem_cons.mpr ⟨hf.stagePure hq₁, stageAll hargs hps⟩) hqs)
  unfold Staged.Supplies
  rw [Staged.code, flatMap_append, flatMap_assoc, temps_call, flatMap_map]
  exact hall

/-- What the statement gains may be read by the expression. -/
theorem eseq {stm : Stm} (hstm : Stm.Assigns known [stm] [] gained)
    (he : e.Readable (known ∪ gained)) : (Exp.eseq stm e).Readable known := by
  intro a b p hp
  obtain ⟨c, u, q, hc, hq, rfl⟩ := yields_stage_eseq.mp hp
  unfold Staged.Supplies
  rw [Staged.code, flatMap_append, Stm.flatMap_linear_unless_nop]
  exact ((hstm (Stm.renders_singleton.mpr ⟨c, hc, rfl⟩)).append (he.stagePure hq)).weaken
    Set.subset_union_right

end Exp.Readable

/-! ## Statements -/

namespace Stm.Assigns

variable {known known' gained gained' : Set Temp} {stms stms' : List Stm} {exits : List Label}
  {branch no yes turn : Stm} {l₀ l₁ done again body : Label}

protected theorem nil (known : Set Temp) (exits : List Label) : Assigns known [] exits known := by
  intro a b code hcode
  obtain ⟨rfl, -⟩ := renders_nil.mp hcode
  exact .nil known exits

theorem mono (h : Assigns known stms exits gained) (hsub : known ⊆ known') :
    Assigns known' stms exits gained :=
  fun _ _ _ hcode => (h hcode).mono hsub

theorem weaken (h : Assigns known stms exits gained) (hsub : gained' ⊆ gained) :
    Assigns known stms exits gained' :=
  fun _ _ _ hcode => (h hcode).weaken hsub

/-- More exits may be allowed for. -/
theorem leave {exits' : List Label} (h : Assigns known stms exits gained) (hsub : exits ⊆ exits') :
    Assigns known stms exits' gained :=
  fun _ _ _ hcode => (h hcode).leave hsub

/-- **One after the other.** -/
protected theorem append (h : Assigns known stms exits gained)
    (h' : Assigns (known ∪ gained) stms' exits gained') :
    Assigns known (stms ++ stms') exits (gained ∪ gained') := by
  intro a b code hcode
  obtain ⟨code₁, u, code₂, hcode₁, hcode₂, rfl⟩ := renders_append.mp hcode
  exact (h hcode₁).append (h' hcode₂)

theorem seqAll (h : Assigns known stms exits gained) : Assigns known [seqAll stms] exits gained :=
  fun _ _ _ hcode => h (renders_seqAll.mp hcode)

/-- A move assigns its temp. -/
theorem move_temp {src : Exp} (h : src.Readable known) (t : Temp) :
    Assigns known [.move (.temp t) src] [] {t} := by
  intro a b code hcode
  obtain ⟨c, hc, rfl⟩ := renders_singleton.mp hcode
  simp only [canonicalize_move, Exp.moveInto, yields_bind, yields_pure] at hc
  obtain ⟨p, u, hp, rfl, -⟩ := hc
  rw [Staged.andThen, linear_seqAll, flatMap_append, flatMap_singleton]
  refine Body.Assigns.weaken (Body.Assigns.snoc (h hp) _ rfl rfl fun _ ht => ht) ?_
  exact Set.singleton_subset_iff.mpr mem_cons_self

theorem move_mem {address src : Exp} (h : address.Readable known) (h' : src.Readable known) :
    Assigns known [.move (.mem address) src] [] ∅ := by
  intro a b code hcode
  obtain ⟨c, hc, rfl⟩ := renders_singleton.mp hcode
  rw [canonicalize_move] at hc
  obtain ⟨q₁, u, p₂, v, q₂, v', q, hq₁, hp₂, hq₂, hq, rfl⟩ := Exp.yields_moveInto_mem.mp hc
  rw [linear_seqAll, flatMap_append, flatMap_singleton]
  have hpair := ((h.stagePure hq₁).protect hq).pair ((h' hp₂).holdCall hq₂)
  exact (hpair.snoc (.move (.mem q.value) q₂.value) rfl rfl fun _ ht => ht).weaken
    (Set.empty_subset _)

theorem exp {e : Exp} (h : e.Readable known) : Assigns known [.exp e] [] ∅ := by
  intro a b code hcode
  obtain ⟨c, hc, rfl⟩ := renders_singleton.mp hcode
  obtain ⟨p, hp, rfl⟩ := yields_canonicalize_exp.mp hc
  rw [linear_seqAll, flatMap_append]
  split
  · rw [flatMap_nil, append_nil]
    exact Body.Assigns.weaken (h hp) (Set.empty_subset _)
  · next hleaf =>
    rw [flatMap_singleton, linear_exp (by simpa using hleaf)]
    exact Body.Assigns.weaken (Body.Assigns.snoc (h hp) _ rfl rfl fun _ ht => ht)
      (Set.empty_subset _)

/-- A branch assigns nothing, and may leave for its label. -/
theorem cjump {rel : RelOp} {l r : Exp} (hl : l.Readable known) (hr : r.Readable known)
    (target : Label) : Assigns known [.cjump rel l r target] [target] ∅ := by
  intro a b code hcode
  obtain ⟨c, hc, rfl⟩ := renders_singleton.mp hcode
  obtain ⟨q₁, u, q₂, v, q, hq₁, hq₂, hq, rfl⟩ := yields_canonicalize_cjump.mp hc
  rw [linear_seqAll, flatMap_append, flatMap_singleton]
  have hpair := ((hl.stagePure hq₁).protect hq).pair (hr.stagePure hq₂)
  exact ((hpair.leave (nil_subset _)).append (.branch (fun t ht => .inr ht) target)).weaken
    (Set.empty_subset _)

/-- A branch around a jump. -/
theorem around {skip : Label} (h : Assigns known [branch] [skip] ∅) (target : Label) :
    Assigns known [Stm.seqAll [branch, .jump target, .label skip]] [target] ∅ := by
  intro a b code hcode
  obtain ⟨code₁, u, _, hcode₁, hrest, rfl⟩ := renders_cons_singleton.mp (renders_seqAll.mp hcode)
  simp only [renders_cons_jump, renders_cons_label, renders_nil] at hrest
  obtain ⟨_, ⟨_, ⟨rfl, -⟩, rfl⟩, rfl⟩ := hrest
  exact (h hcode₁).around target

/-- A choice between two constants. -/
theorem choice (h : Assigns known stms [l₀, l₁] ∅) (t : Temp) (x y : Int64) (done : Label) :
    Assigns known [Stm.seqAll (stms ++ Body.choice t x y l₀ l₁ done)] [] {t} := by
  intro a b code hcode
  obtain ⟨code₁, u, _, hcode₁, htail, rfl⟩ := renders_append.mp (renders_seqAll.mp hcode)
  simp only [Body.choice, renders_cons_label, renders_cons_const, renders_cons_jump,
    renders_nil] at htail
  obtain ⟨_, ⟨_, ⟨_, ⟨_, ⟨_, ⟨_, ⟨rfl, -⟩, rfl⟩, rfl⟩, rfl⟩, rfl⟩, rfl⟩, rfl⟩ := htail
  exact (h hcode₁).choice t x y done

/-- Both ways of a conditional meet with what was assigned before it. -/
theorem conditional (hbranch : Assigns known [branch] [l₁] ∅) (hno : Assigns known [no] [] ∅)
    (hyes : Assigns known [yes] [] ∅) :
    Assigns known [Stm.conditional branch no yes l₀ l₁ done] [] ∅ := by
  intro a b code hcode
  obtain ⟨c, u, no', v, yes', hc, hno', hyes', rfl⟩ := hcode.of_conditional
  exact (hbranch (renders_singleton.mpr ⟨c, hc, rfl⟩)).conditional (hno hno') (hyes hyes')

/-- A turn of a loop leaves what was assigned before the first one. -/
theorem loop (hbranch : Assigns known [branch] [body] ∅) (hturn : Assigns known [turn] [] ∅) :
    Assigns known [Stm.loop branch turn again body done] [] ∅ := by
  intro a b code hcode
  obtain ⟨c, u, turn', hc, hturn', rfl⟩ := hcode.of_loop
  exact (hbranch (renders_singleton.mpr ⟨c, hc, rfl⟩)).loop (hturn hturn')

end Stm.Assigns

end TreeBackend
