import TreeBackend.Proofs.TreeDiscipline

/-!
# Effects of trees

Some statements stand for the **effects** of a part of a tree: they are
canonical, they do not jump, and they write no temp that the part does not assign
– other than holders of their own – and touch the memory only if the part does.
This module says which statements are effects of what, and collects what is
needed about pure expressions and about sequences on the way.
-/

namespace TreeBackend

open List World

variable {e : Exp} {stms : List Stm}

/-! ## Pure expressions -/

section Pure

variable {V M : Type} {host : Host V M}

/-- A pure expression leaves the world as it is. -/
theorem Exp.eval_snd_of_isPure (h : e.isPure = true) (w : World V M) : (e.eval host w).2 = w := by
  induction e using Exp.isPure.induct generalizing w with
  | case1 | case2 | case3 => rfl
  | case4 op l r ihl ihr =>
    rw [isPure, Bool.and_eq_true] at h
    rw [eval, ihl h.1, ihr h.2]
  | case5 e ih | case6 address ih => exact ih h w
  | case7 | case8 => cases h

/-- Pure expressions leave the world as it is, so that each may be evaluated in
the world all of them start in. -/
theorem Exp.evalAll_of_isPure {es : List Exp} (h : ∀ e ∈ es, e.isPure = true) (w : World V M) :
    Exp.evalAll host es w = (es.map fun e => (e.eval host w).1, w) := by
  induction es with
  | nil => rfl
  | cons e es ih =>
    rw [forall_mem_cons] at h
    rw [evalAll, eval_snd_of_isPure h.1, ih h.2, map_cons]

/-- Worlds that agree on the temps of a pure expression agree on its value. -/
theorem Exp.eval_fst_of_agree (h : e.isPure = true) {on : Temp → Prop} {w u : World V M}
    (hagree : Agree on w u) (htemps : ∀ n ∈ e.nodes, ∀ t ∈ n.temp?, on t) :
    (e.eval host u).1 = (e.eval host w).1 := by
  induction e using Exp.isPure.induct with
  | case1 | case2 => rfl
  | case3 t => exact hagree.temps t (htemps _ mem_cons_self t rfl)
  | case4 op l r ihl ihr =>
    rw [isPure, Bool.and_eq_true] at h
    rw [nodes, Node.forall_mem_parts] at htemps
    rw [eval, eval, eval_snd_of_isPure h.1, eval_snd_of_isPure h.1, ihl h.1 htemps.2.1,
      ihr h.2 htemps.2.2]
  | case5 e ih =>
    rw [nodes, forall_mem_cons] at htemps
    rw [eval, eval, ih h htemps.2]
  | case6 address ih =>
    rw [nodes, forall_mem_cons] at htemps
    have haddress : address.isPure = true := h
    rw [eval, eval, ih h htemps.2, eval_snd_of_isPure haddress, eval_snd_of_isPure haddress,
      hagree.memory]
  | case7 | case8 => cases h

/-- What commutes is a leaf, or a memory read at an address that commutes. -/
theorem Exp.commutes_induction {P : (e : Exp) → e.commutes = true → Prop}
    (const : ∀ n, P (.const n) rfl) (name : ∀ l, P (.name l) rfl) (temp : ∀ t, P (.temp t) rfl)
    (mem : ∀ address (h : address.commutes = true), P address h → P (.mem address) h)
    (h : e.commutes = true) : P e h := by
  induction e using Exp.commutes.induct with
  | case1 address ih => exact mem address h (ih h)
  | case2 e hmem =>
    cases e with
    | const n => exact const n
    | name l => exact name l
    | temp t => exact temp t
    | mem address => exact absurd rfl (hmem address)
    | binop | not | call | eseq => cases h

theorem Exp.isPure_of_commutes (h : e.commutes = true) : e.isPure = true := by
  induction h using Exp.commutes_induction with
  | const | name | temp => rfl
  | mem address haddress ih => exact ih

theorem Exp.isPure_of_isLeaf (h : e.isLeaf = true) : e.isPure = true := by
  cases e with
  | const | name | temp => rfl
  | binop | not | mem | call | eseq => cases h

theorem Exp.isChain_of_commutes (h : e.commutes = true) : e.isChain = true := by
  induction h using Exp.commutes_induction with
  | const | name | temp => rfl
  | mem address haddress ih => exact ih

/-- A value that commutes is the same in worlds that agree on what it reads. -/
theorem Exp.eval_fst_of_commutes (h : e.commutes = true) {w u : World V M}
    (hbase : ∀ t, e.base? = some t → u.temps t = w.temps t)
    (hmemory : e.isReadChain = true → u.memory = w.memory) :
    (e.eval host u).1 = (e.eval host w).1 := by
  induction h using Exp.commutes_induction with
  | const | name => rfl
  | temp t => exact hbase t rfl
  | mem address haddress ih =>
    have hpure : address.isPure = true := isPure_of_commutes haddress
    have hmem : u.memory = w.memory := hmemory (isChain_of_commutes haddress)
    rw [eval, eval, eval_snd_of_isPure hpure, eval_snd_of_isPure hpure, hmem,
      ih hbase fun _ => hmem]

end Pure

/-- A node is **silent** if it neither assigns a temp nor touches the memory. -/
structure Node.Silent (n : Node) : Prop where
  assigns : ∀ t, n.assigns t = false
  touchesMemory : n.touchesMemory = false

/-- The nodes of a pure expression are pure expressions. -/
theorem Exp.forall_mem_nodes_of_isPure {P : Node → Prop} (h : e.isPure = true)
    (hP : ∀ e : Exp, e.isPure = true → P (.exp e)) : ∀ n ∈ e.nodes, P n := by
  induction e using Exp.isPure.induct with
  | case1 | case2 | case3 => exact forall_mem_singleton.mpr (hP _ h)
  | case4 op l r ihl ihr =>
    rw [nodes, Node.forall_mem_parts]
    obtain ⟨hl, hr⟩ := (Bool.and_eq_true _ _).mp h
    exact ⟨hP _ h, ihl hl, ihr hr⟩
  | case5 e ih | case6 address ih => exact forall_mem_cons.mpr ⟨hP _ h, ih h⟩
  | case7 | case8 => cases h

/-- All nodes of a pure expression are silent. -/
theorem Exp.silent_of_isPure (h : e.isPure = true) : ∀ n ∈ e.nodes, n.Silent := by
  refine forall_mem_nodes_of_isPure h fun e he => ⟨fun _ => rfl, ?_⟩
  cases e with
  | const | name | temp | binop | not | mem | eseq => rfl
  | call => cases he

/-! ## Sequences -/

namespace Stm

variable {V M : Type} {host : Host V M}

theorem exec_of_isNop {s : Stm} (h : s.isNop = true) (w : World V M) : s.exec host w = w := by
  unfold isNop at h
  split at h
  · rfl
  · cases h

theorem exec_chain (stms : List Stm) (w : World V M) :
    (chain stms).exec host w = execAll host stms w := by
  induction stms using chain.induct generalizing w with
  | case1 | case2 => rfl
  | case3 s rest hrest ih =>
    rw [chain, exec, ih]
    · rfl
    · exact hrest

/-- A sequence does what its statements do, one after the other. -/
theorem exec_seqAll (stms : List Stm) (w : World V M) :
    (seqAll stms).exec host w = execAll host stms w := by
  rw [seqAll, exec_chain]
  induction stms generalizing w with
  | nil => rfl
  | cons s stms ih =>
    rw [filter_cons]
    split
    · rw [execAll_cons, execAll_cons, ih]
    · next hnop =>
      rw [execAll_cons, ih, exec_of_isNop (by simpa using hnop)]

/-- A sequence has what `nop` has and what passes from two statements to their
sequence, if its statements have it. -/
theorem seqAll_of_forall {P : Stm → Prop} (nop : P nop) (seq : ∀ a b, P a → P b → P (seq a b))
    (h : ∀ s ∈ stms, P s) : P (seqAll stms) := by
  have hchain : ∀ stms : List Stm, (∀ s ∈ stms, P s) → P (chain stms) := by
    intro stms h
    induction stms using chain.induct with
    | case1 => exact nop
    | case2 s => exact h s mem_cons_self
    | case3 s rest hrest ih =>
      rw [chain]
      · exact seq s _ (h s mem_cons_self) (ih fun s hs => h s (mem_cons_of_mem _ hs))
      · exact hrest
  exact hchain _ fun s hs => h s ((mem_filter.mp hs).1)

/-- A sequence **lists** what its statements list one after the other, if so does the
sequence of two statements, and a constant lists nothing. -/
theorem seqAll_flatMap {α : Type} {f : Stm → List α} (const : ∀ n, f (exp (.const n)) = [])
    (seq : ∀ a b, f (seq a b) = f a ++ f b) (stms : List Stm) :
    f (seqAll stms) = stms.flatMap f := by
  have hchain : ∀ stms : List Stm, f (chain stms) = stms.flatMap f := by
    intro stms
    induction stms using chain.induct with
    | case1 => exact const 0
    | case2 s => rw [flatMap_singleton, chain]
    | case3 s rest hrest ih =>
      rw [chain, seq, ih, flatMap_cons]
      exact hrest
  have hnop : ∀ {s : Stm}, s.isNop = true → f s = [] := by
    intro s h
    unfold isNop at h
    split at h
    · exact const _
    · cases h
  rw [seqAll, hchain]
  induction stms with
  | nil => rfl
  | cons s stms ih =>
    rw [filter_cons, flatMap_cons]
    split
    · rw [flatMap_cons, ih]
    · next hs => rw [ih, hnop (by simpa using hs), nil_append]

theorem isCanonical_seqAll (h : ∀ s ∈ stms, s.isCanonical = true) :
    (seqAll stms).isCanonical = true :=
  seqAll_of_forall (P := fun c => c.isCanonical = true) rfl
    (fun a b ha hb => by rw [isCanonical, ha, hb]; rfl) h

theorem isStraight_seqAll (h : ∀ s ∈ stms, s.isStraight = true) : (seqAll stms).isStraight = true :=
  seqAll_of_forall (P := fun c => c.isStraight = true) rfl
    (fun a b ha hb => by rw [isStraight, ha, hb]; rfl) h

end Stm

/-! ## Effects -/

/-- A holder with a number in a range. -/
structure Temp.HolderIn (lo hi : Nat) (t : Temp) : Prop where
  kind : t.kind = .holder
  lower : lo ≤ t.index
  upper : t.index < hi

theorem Temp.HolderIn.mono {lo hi lo' hi' : Nat} {t : Temp} (h : t.HolderIn lo hi)
    (hlo : lo' ≤ lo) (hhi : hi ≤ hi') : t.HolderIn lo' hi' :=
  ⟨h.kind, Nat.le_trans hlo h.lower, Nat.lt_of_lt_of_le h.upper hhi⟩

/-- A session does not own the holders that were drawn after it. -/
theorem Temp.HolderIn.not_owns {s : Session} {lo hi : Nat} {t : Temp} (h : t.HolderIn lo hi)
    (hle : s.tempCount ≤ lo) : ¬ s.Owns t := by
  intro howns
  unfold Session.Owns at howns
  rw [h.kind] at howns
  exact absurd (Nat.le_trans hle h.lower) (Nat.not_le.mpr howns)

/-- Statements that stand for the **effects** of some nodes: canonical, without
jumps, and writing only what the nodes write, and holders with numbers from `lo`
up to `hi`. -/
structure Effects (s : Session) (ns : List Node) (lo hi : Nat) (stms : List Stm) : Prop where
  canonical : ∀ stm ∈ stms, stm.isCanonical = true
  straight : ∀ stm ∈ stms, stm.isStraight = true
  assigns : ∀ n ∈ stms.flatMap Stm.nodes, ∀ t, n.assigns t = true →
    s.Owns t ∧ ns.any (Node.assigns t) = true ∨ t.HolderIn lo hi
  touches : ∀ n ∈ stms.flatMap Stm.nodes, n.touchesMemory = true → ns.any Node.touchesMemory = true

namespace Effects

variable {s : Session} {ns ns' : List Node} {lo mid hi lo' hi' : Nat} {stms' : List Stm}

theorem nil (s : Session) (ns : List Node) (lo hi : Nat) : Effects s ns lo hi [] where
  canonical := by simp
  straight := by simp
  assigns := by simp
  touches := by simp

/-- More nodes, and more numbers for holders, only allow for more. -/
theorem mono (h : Effects s ns lo hi stms) (ns' : List Node)
    (hassigns : ∀ t, ns.any (Node.assigns t) = true → ns'.any (Node.assigns t) = true)
    (htouches : ns.any Node.touchesMemory = true → ns'.any Node.touchesMemory = true)
    (hlo : lo' ≤ lo) (hhi : hi ≤ hi') : Effects s ns' lo' hi' stms where
  canonical := h.canonical
  straight := h.straight
  assigns n hn t ht :=
    (h.assigns n hn t ht).imp (.imp_right (hassigns t)) fun holder => holder.mono hlo hhi
  touches n hn hm := htouches (h.touches n hn hm)

/-- One effect after another. -/
theorem append (h : Effects s ns lo hi stms) (h' : Effects s ns lo hi stms') :
    Effects s ns lo hi (stms ++ stms') where
  canonical := forall_mem_append.mpr ⟨h.canonical, h'.canonical⟩
  straight := forall_mem_append.mpr ⟨h.straight, h'.straight⟩
  assigns := by
    rw [flatMap_append]
    exact forall_mem_append.mpr ⟨h.assigns, h'.assigns⟩
  touches := by
    rw [flatMap_append]
    exact forall_mem_append.mpr ⟨h.touches, h'.touches⟩

/-- The effects of some nodes, then those of others. -/
theorem join (h : Effects s ns lo mid stms) (h' : Effects s ns' mid hi stms') (hlo : lo ≤ mid)
    (hhi : mid ≤ hi) : Effects s (ns ++ ns') lo hi (stms ++ stms') :=
  (h.mono (ns ++ ns') (by simp +contextual) (by simp +contextual) (Nat.le_refl lo) hhi).append
    (h'.mono (ns ++ ns') (by simp +contextual) (by simp +contextual) hlo (Nat.le_refl hi))

/-- The sequence of effects is an effect. -/
theorem seqAll (h : Effects s ns lo hi stms) : Effects s ns lo hi [Stm.seqAll stms] := by
  -- putting statements in sequence adds nodes that do nothing
  have hnodes : ∀ n ∈ (Stm.seqAll stms).nodes, n.Silent ∨ n ∈ stms.flatMap Stm.nodes := by
    refine Stm.seqAll_of_forall (P := fun c => ∀ n ∈ c.nodes, n.Silent ∨ n ∈ stms.flatMap Stm.nodes)
      ?_ (fun a b ha hb => ?_) fun stm hstm n hn => .inr (mem_flatMap.mpr ⟨stm, hstm, hn⟩)
    · intro n hn
      left
      obtain rfl | hn := mem_cons.mp hn
      · exact ⟨fun _ => rfl, rfl⟩
      · exact Exp.silent_of_isPure rfl n hn
    · rw [Stm.nodes, Node.forall_mem_parts]
      exact ⟨.inl ⟨fun _ => rfl, rfl⟩, ha, hb⟩
  refine ⟨?_, ?_, ?_, ?_⟩
  · rw [forall_mem_singleton]
    exact Stm.isCanonical_seqAll h.canonical
  · rw [forall_mem_singleton]
    exact Stm.isStraight_seqAll h.straight
  · rw [flatMap_singleton]
    intro n hn t ht
    obtain hsilent | hn := hnodes n hn
    · rw [hsilent.assigns] at ht
      cases ht
    · exact h.assigns n hn t ht
  · rw [flatMap_singleton]
    intro n hn hm
    obtain hsilent | hn := hnodes n hn
    · rw [hsilent.touchesMemory] at hm
      cases hm
    · exact h.touches n hn hm

end Effects

/-! ## Statements that are effects -/

theorem Exp.isCanonicalSource_of_isPure (h : e.isPure = true) : e.isCanonicalSource = true := by
  unfold isCanonicalSource
  split
  · cases h
  · exact h

/-- The node of a call is the only one of a canonical source that is not
silent, and it assigns nothing. -/
theorem Exp.assigns_of_isCanonicalSource (h : e.isCanonicalSource = true) :
    ∀ n ∈ e.nodes, ∀ t, n.assigns t = false := by
  unfold isCanonicalSource at h
  split at h
  · rw [Bool.and_eq_true, all_eq_true] at h
    rw [nodes, Node.forall_mem_parts, nodesAll_eq, forall_mem_flatMap]
    exact ⟨fun _ => rfl, fun n hn => (silent_of_isPure h.1 n hn).assigns,
      fun e he n hn => (silent_of_isPure (h.2 e he) n hn).assigns⟩
  · exact fun n hn => (silent_of_isPure h n hn).assigns

namespace Effects

variable {s : Session} {ns : List Node} {lo hi : Nat} {t : Temp} {v address : Exp}

/-- Evaluating a canonical source writes no temp. -/
private theorem of_source (hsource : v.isCanonicalSource = true) :
    ∀ n ∈ v.nodes, ∀ t, n.assigns t = true →
      s.Owns t ∧ ns.any (Node.assigns t) = true ∨ t.HolderIn lo hi := by
  intro n hn t ht
  rw [Exp.assigns_of_isCanonicalSource hsource n hn] at ht
  cases ht

/-- Evaluating a value touches the memory only if it is a call. -/
private theorem of_pure_or (hcall : v.isPure = true ∨ ns.any Node.touchesMemory = true) :
    ∀ n ∈ v.nodes, n.touchesMemory = true → ns.any Node.touchesMemory = true := by
  intro n hn hm
  obtain hpure | htouches := hcall
  · rw [(Exp.silent_of_isPure hpure n hn).touchesMemory] at hm
    cases hm
  · exact htouches

/-- Evaluating a value, for nothing but its effects. -/
theorem exp (hsource : v.isCanonicalSource = true)
    (hcall : v.isPure = true ∨ ns.any Node.touchesMemory = true) :
    Effects s ns lo hi [.exp v] := by
  refine ⟨?_, ?_, ?_, ?_⟩
  · rw [forall_mem_singleton]
    exact hsource
  · rw [forall_mem_singleton]
    rfl
  · rw [flatMap_singleton, Stm.nodes, forall_mem_cons]
    exact ⟨fun t ht => (by cases ht), of_source hsource⟩
  · rw [flatMap_singleton, Stm.nodes, forall_mem_cons]
    exact ⟨fun hm => (by cases hm), of_pure_or hcall⟩

/-- Moving a value into a temp that may be written. -/
theorem move_temp (ht : s.Owns t ∧ ns.any (Node.assigns t) = true ∨ t.HolderIn lo hi)
    (hsource : v.isCanonicalSource = true)
    (hcall : v.isPure = true ∨ ns.any Node.touchesMemory = true) :
    Effects s ns lo hi [.move (.temp t) v] := by
  refine ⟨?_, ?_, ?_, ?_⟩
  · rw [forall_mem_singleton]
    exact hsource
  · rw [forall_mem_singleton]
    rfl
  · rw [flatMap_singleton, Stm.nodes, Node.forall_mem_parts]
    refine ⟨fun t' ht' => ?_, of_source rfl, of_source hsource⟩
    obtain rfl : t = t' := by simpa [Node.assigns, Exp.assigned?] using ht'
    exact ht
  · rw [flatMap_singleton, Stm.nodes, Node.forall_mem_parts]
    exact ⟨fun hm => (by cases hm), of_pure_or (.inl rfl), of_pure_or hcall⟩

/-- Moving a value into memory that may be written. -/
theorem move_mem (htouches : ns.any Node.touchesMemory = true) (haddress : address.isPure = true)
    (hvalue : v.isPure = true) : Effects s ns lo hi [.move (.mem address) v] := by
  refine ⟨?_, ?_, ?_, ?_⟩
  · rw [forall_mem_singleton]
    show ((Exp.mem address).isPure && v.isPure) = true
    rw [hvalue, Bool.and_true]
    exact haddress
  · rw [forall_mem_singleton]
    rfl
  · rw [flatMap_singleton, Stm.nodes, Node.forall_mem_parts]
    exact ⟨fun t ht => (by cases ht),
      of_source (Exp.isCanonicalSource_of_isPure (e := .mem address) haddress),
      of_source (Exp.isCanonicalSource_of_isPure hvalue)⟩
  · exact fun n hn hm => htouches

end Effects

end TreeBackend
