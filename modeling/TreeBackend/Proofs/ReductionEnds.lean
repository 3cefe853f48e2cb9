import TreeBackend.Proofs.GraphReduction
import Mathlib.Data.Finset.Card
import Mathlib.Data.Finset.Prod
import Mathlib.Logic.Relation

/-!
# Reductions come to an end

A reduction takes steps until none is left, and `Reduction.stepBound` is its
fuel. Every phase takes a node out of the graph or gives up a move edge, and none
brings one back: merging two nodes redirects the move edges of one to the other,
which may make two of them one but never more. So the nodes in the graph and the
move edges, counted together, are the **work** that is left
(`Reduction.work`), and each phase leaves less.

When no step is left, no node is: everything that is not coloured from the start
has been removed (`Reduction.active_exhaust`), and since nothing is removed twice
the stack **accounts for every node once**.
-/

namespace TreeBackend

open List

variable {g : Interference}

namespace Reduction

variable {r r' : Reduction}

/-! ## The work that is left -/

/-- The nodes still in the graph, those coloured from the start among them. -/
def present (r : Reduction) : Finset Nat :=
  (Finset.range r.adjacent.size).filter fun n => r.isRemoved n = false

/-- The move edges that are left, each in both directions. -/
def moveEdges (r : Reduction) : Finset (Nat × Nat) :=
  (Finset.range r.adjacent.size ×ˢ Finset.range r.adjacent.size).filter fun e => e.2 ∈ r.related e.1

/-- How much is left to take apart. -/
def work (r : Reduction) : Nat := r.present.card + r.moveEdges.card

theorem mem_present {n : Nat} : n ∈ r.present ↔ n < r.adjacent.size ∧ r.isRemoved n = false := by
  simp [present]

/-- Move edges join nodes that are there, so they are the pairs that are
related. -/
theorem Coherent.mem_moveEdges (h : r.Coherent) {n m : Nat} :
    (n, m) ∈ r.moveEdges ↔ m ∈ r.related n := by
  unfold moveEdges
  rw [Finset.mem_filter, Finset.mem_product, Finset.mem_range, Finset.mem_range]
  refine ⟨fun hm => hm.2, fun hm => ⟨⟨?_, ?_⟩, hm⟩⟩
  · exact (mem_active.mp (h.related_active (h.related_symm hm))).1
  · exact (mem_active.mp (h.related_active hm)).1

/-- One node fewer is in the graph after a removal. -/
theorem Coherent.present_remove (h : r.Coherent) {n : Nat} (hn : n ∈ r.active) (how : Removal) :
    (r.remove n how).present.card < r.present.card := by
  obtain ⟨hlt, hrem, _⟩ := mem_active.mp hn
  have hremoved := isRemoved_remove (by rw [h.size_removed]; exact hlt) how
  refine Finset.card_lt_card ⟨fun m hm => ?_, fun hsub => ?_⟩
  · obtain ⟨hm, hgone⟩ := mem_present.mp hm
    rw [hremoved, Bool.or_eq_false_iff] at hgone
    exact mem_present.mpr ⟨hm, hgone.2⟩
  · obtain ⟨_, hgone⟩ := mem_present.mp (hsub (mem_present.mpr ⟨hlt, hrem⟩))
    rw [hremoved, decide_eq_true rfl, Bool.true_or] at hgone
    cases hgone

/-- **Every phase leaves less work.** -/
theorem Phase.work_lt (hp : Phase r r') (h : r.Coherent) : r'.work < r.work := by
  have h' := h.phase hp
  unfold work
  cases hp with
  | simplify hn _ _ | spill hn _ _ => exact Nat.add_lt_add_right (h.present_remove hn _) _
  | @coalesce a b ha hb _ _ =>
    obtain ⟨hkeep, habsorbed, hne⟩ := h.ends_active ha hb
    refine Nat.add_lt_add_of_lt_of_le ?_ ?_
    · have hsize : (r.merge (min a b) (max a b)).present
          = (r.remove (max a b) (.merged (min a b) (max a b))).present := by
        simp [present, merge, remove, redirect, isRemoved]
      rw [hsize]
      exact h.present_remove habsorbed _
    · -- a move edge that is left was redirected from one that was there
      refine (Finset.card_le_card fun e he => ?_).trans (Finset.card_image_le
        (s := r.moveEdges) (f := Prod.map (Removal.unify (min a b) (max a b))
          (Removal.unify (min a b) (max a b))))
      obtain ⟨n, m⟩ := e
      obtain ⟨⟨_, x, y, hx, hy, hxy⟩, _⟩ :=
        (h.mem_related_merge hkeep hne n m).mp (h'.mem_moveEdges.mp he)
      exact Finset.mem_image.mpr ⟨(x, y), h.mem_moveEdges.mpr hxy, Prod.ext hx hy⟩
  | @freeze n m hn hm _ _ =>
    have hpresent : (r.freezeEdge n m).present = r.present := by
      simp [present, freezeEdge, connect, isRemoved]
    rw [hpresent]
    refine Nat.add_lt_add_left (Finset.card_lt_card ⟨fun e he => ?_, fun hsub => ?_⟩) _
    · obtain ⟨x, y⟩ := e
      exact h.mem_moveEdges.mpr ((h.mem_related_freezeEdge hn hm x y).mp (h'.mem_moveEdges.mp he)).1
    · have hgone := h'.mem_moveEdges.mp (hsub (h.mem_moveEdges.mpr hm))
      exact ((h.mem_related_freezeEdge hn hm n m).mp hgone).2 (.inl ⟨rfl, rfl⟩)

/-! ## Enough fuel -/

/-- With fuel for the work, no step is left in the end. -/
theorem step?_run {fuel : Nat} (h : r.Coherent) (hfuel : r.work ≤ fuel) :
    (r.run fuel).step? = none := by
  induction fuel generalizing r with
  | zero =>
    cases hr : r.step? with
    | none => exact hr
    | some r' =>
      have hlt := (phase_of_step? hr).work_lt h
      omega
  | succ fuel ih =>
    unfold run
    split
    · next r' hr =>
      have hp := phase_of_step? hr
      have hlt := hp.work_lt h
      exact ih (h.phase hp) (by omega)
    · next hr => exact hr

/-- The bound on steps covers the work. -/
theorem Coherent.work_le_stepBound (h : r.Coherent) : r.work ≤ r.stepBound := by
  have hpresent : r.present.card ≤ r.adjacent.size :=
    (Finset.card_filter_le _ _).trans_eq (Finset.card_range _)
  -- list the move edges node by node
  have hedges : r.moveEdges ⊆ ((List.range r.moves.size).flatMap fun n =>
      (r.related n).toList.map (Prod.mk n)).toFinset := by
    rintro ⟨n, m⟩ he
    have hm := h.mem_moveEdges.mp he
    have hn := (mem_active.mp (h.related_active (h.related_symm hm))).1
    simp only [mem_toFinset, mem_flatMap, mem_range, mem_map, Prod.mk.injEq]
    exact ⟨n, hn.trans_eq h.size_moves.symm, m, Std.ExtTreeSet.mem_toList.mpr hm, rfl, rfl⟩
  have hcount : ((List.range r.moves.size).flatMap fun n =>
      (r.related n).toList.map (Prod.mk n)).length = (r.moves.map fun set => set.size).sum := by
    rw [length_flatMap, ← Array.sum_toList, Array.toList_map]
    refine congrArg List.sum (ext_getElem (by simp) fun n hn _ => ?_)
    have hlt : n < r.moves.size := by simpa using hn
    simp [related, Array.getD_eq_getD_getElem?, hlt]
  have hmoves := (Finset.card_le_card hedges).trans (toFinset_card_le _)
  rw [hcount] at hmoves
  exact Nat.add_le_add hpresent hmoves

/-- As long as a node is left, so is a step. -/
theorem active_of_step? (h : r.step? = none) : r.active = [] := by
  unfold step? at h
  simp only [Option.orElse_eq_none] at h
  have hspill : r.spill? = none := h.2.2.2
  unfold spill? at hspill
  rw [Option.map_eq_none_iff] at hspill
  have hnil : ∀ {candidates : List Nat}, candidates.maxOn? r.degree = none → candidates = [] := by
    intro candidates hnone
    by_contra hne
    have hsome := List.isSome_maxOn?_iff (f := r.degree).mpr hne
    rw [hnone] at hsome
    cases hsome
  split at hspill
  · exact hnil hspill
  · next hwanted => exact absurd (isEmpty_iff.mpr (hnil hspill)) hwanted

/-- **A reduction that was taken to its end leaves no node**: whatever is not
coloured from the start has been removed. -/
theorem active_exhaust (hg : g.WellFormed) (registers : Nat) (avoid : TempSet) :
    (new g registers avoid).exhaust.active = [] := by
  have h := coherent_new hg registers avoid
  exact active_of_step? (step?_run h h.work_le_stepBound)

/-- Whatever is not coloured from the start has been removed in one way or another. -/
theorem exists_removal (hg : g.WellFormed) (registers : Nat) (avoid : TempSet) {i : Nat}
    (hi : i < g.nodes.size) (hfree : g.precolored i = false) :
    ∃ how ∈ (new g registers avoid).exhaust.stack, how.node = i := by
  obtain ⟨hr, ht, -⟩ := exhaust_new hg registers avoid
  rw [← hr.removed_iff]
  by_contra hpresent
  have hactive : i ∈ (new g registers avoid).exhaust.active := mem_active.mpr
    ⟨hi.trans_eq ht.size_eq.symm, Bool.eq_false_of_not_eq_true hpresent,
      (ht.precolored_eq i).trans hfree⟩
  rw [active_exhaust hg] at hactive
  exact not_mem_nil hactive

/-! ## Whole runs -/

/-- One reduction is **reached** from another by steps. -/
def Reaches (r r' : Reduction) : Prop := Relation.ReflTransGen (fun r r' => r.step? = some r') r r'

/-- A reduction stays coherent, however many steps it takes. -/
theorem Coherent.reaches (h : r.Coherent) (hreaches : r.Reaches r') : r'.Coherent := by
  induction hreaches with
  | refl => exact h
  | tail _ hnext ih => exact ih.phase (phase_of_step? hnext)

theorem reaches_run (r : Reduction) (fuel : Nat) : r.Reaches (r.run fuel) := by
  induction fuel generalizing r with
  | zero => exact .refl
  | succ fuel ih =>
    unfold run
    split
    · next r' hnext => exact .head hnext (ih r')
    · exact .refl

/-- No node is removed twice: a removal speaks of the node that leaves, which is then gone. -/
theorem Coherent.nodup_removed (h : r.Coherent) : (r.stack.map Removal.node).Nodup := by
  refine pairwise_map.mpr (h.stack_order.imp fun {later earlier} hgone heq => hgone ?_)
  rw [← heq]
  exact later.node_mem_nodes

/-- In the end the stack holds the nodes that are not coloured from the start, each once. -/
theorem removed_exhaust_perm (hg : g.WellFormed) (registers : Nat) (avoid : TempSet) :
    ((new g registers avoid).exhaust.stack.map Removal.node).Perm
      ((List.range g.nodes.size).filter fun n => !g.precolored n) := by
  obtain ⟨hr, ht, -⟩ := exhaust_new hg registers avoid
  refine (perm_ext_iff_of_nodup hr.nodup_removed (nodup_range.filter _)).mpr fun n => ?_
  rw [mem_map, mem_filter, mem_range, Bool.not_eq_true']
  constructor
  · rintro ⟨how, hhow, rfl⟩
    obtain ⟨hlt, hfree⟩ := (hr.stack_nodes hhow).2 how.node how.node_mem_nodes
    exact ⟨hlt.trans_eq ht.size_eq, (ht.precolored_eq how.node).symm.trans hfree⟩
  · rintro ⟨hlt, hfree⟩
    exact exists_removal hg registers avoid hlt hfree

end Reduction

namespace Interference

/-- **Taking a graph apart comes to an end, and accounts for every node once.** However many
registers there are and whichever temps are to be avoided, the steps come to a reduction that has
none left; the nodes on its stack, whether simplified, given up or absorbed in a merge, are those
not coloured from the start, each of them once, and no node that is coloured from the start is
made one with another either. On the way there, edges run both ways between different nodes that
were not absorbed, and move edges run both ways between nodes still to be removed that do not
interfere. -/
theorem exhaust_accounts_for_every_node (code : List Instruction) (live : Liveness)
    (colors registers : Nat) (avoid : TempSet) :
    let g := build code live colors
    let start := Reduction.new g registers avoid
    (start.Reaches start.exhaust ∧ start.exhaust.step? = none) ∧
    (start.exhaust.stack.map Removal.node).Perm
      ((List.range g.nodes.size).filter fun n => !g.precolored n) ∧
    (∀ how ∈ start.exhaust.stack, ∀ n ∈ how.nodes, g.precolored n = false) ∧
    ∀ r, start.Reaches r → (∀ n m, m ∈ r.neighbours n →
        n ∈ r.neighbours m ∧ n ≠ m ∧ ∀ keep, .merged keep m ∉ r.stack) ∧
      ∀ n m, m ∈ r.related n →
        n ∈ r.related m ∧ n ≠ m ∧ n ∈ r.active ∧ m ∈ r.active ∧ m ∉ r.neighbours n := by
  intro g start
  have hg : g.WellFormed := wellFormed_build code live colors
  have hstart : start.Coherent := Reduction.coherent_new hg registers avoid
  obtain ⟨hend, htracks, -⟩ := Reduction.exhaust_new hg registers avoid
  refine ⟨⟨Reduction.reaches_run start _, Reduction.step?_run hstart hstart.work_le_stepBound⟩,
    Reduction.removed_exhaust_perm hg registers avoid, fun how hhow n hn => ?_, fun r hr => ?_⟩
  · exact (htracks.precolored_eq n).symm.trans ((hend.stack_nodes hhow).2 n hn).2
  · have h := hstart.reaches hr
    refine ⟨fun n m hm => ⟨h.neighbours_symm hm, h.neighbours_ne hm, h.neighbours_whole hm⟩,
      fun n m hm => ?_⟩
    have hn := h.related_symm hm
    exact ⟨hn, h.related_ne hm, h.related_active hn, h.related_active hm, h.related_apart hm⟩

end Interference

end TreeBackend
