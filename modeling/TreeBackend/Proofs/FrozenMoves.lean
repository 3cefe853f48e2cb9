import TreeBackend.Proofs.SimplifiedNodes

/-!
# What it costs to give up a move

Where every node has fewer neighbours than there are registers, nothing needs to be
given up: simplification only takes neighbours away, and two nodes are made one only
if together they have few neighbours. Freezing is the exception. The two nodes of a
move edge that is given up count as neighbours from then on, and either of them may
have been one short of **crowded** (`Reduction.Crowds`). As long as no step crowds a
node, a reduction stays sparse (`Reduction.Sparse.phase`) and gives up no node; so
nothing is spilled. A ring of conflicts that two copies close (`Interference.copyRing`)
shows that giving up moves can be all there is behind a spill.

Whether a step may crowd a node can be told from the graph that was built. A node that
is made one with others, or has moves given up, has no neighbours but what interferes
with the temps it is copied to or from, directly or through other copies, and those
temps themselves. If this **crowd** is no larger than the number of registers, the node
has few neighbours at every step (`Reduction.Joins.degree_lt_card`).
-/

namespace TreeBackend

open List Std.ExtTreeSet

variable {n : Nat}

namespace Reduction

variable {r r' : Reduction}

/-! ## Neighbours that are left -/

theorem degree_le_card {few : Finset Nat}
    (h : ∀ m ∈ r.neighbours n, r.isRemoved m = false → m ∈ few) : r.degree n ≤ few.card := by
  rw [degree, ← card_remainder]
  refine Finset.card_le_card fun m hm => ?_
  obtain ⟨hm, hpresent⟩ := mem_remainder.mp hm
  exact h m hm hpresent

theorem degree_le_size (r : Reduction) (n : Nat) : r.degree n ≤ (r.neighbours n).size :=
  countP_le_length.trans_eq length_toList

/-- A node that has no new neighbours, and none that came back, has no more of them than
before. -/
theorem degree_le_degree (r : Reduction) {n : Nat} (h : ∀ m ∈ r'.neighbours n,
    r'.isRemoved m = false → m ∈ r.neighbours n ∧ r.isRemoved m = false) :
    r'.degree n ≤ r.degree n := by
  refine (degree_le_card fun m hm hpresent => ?_).trans_eq (card_remainder r (r.neighbours n))
  exact mem_remainder.mpr (h m hm hpresent)

section Merge

variable {keep absorbed : Nat}

theorem Coherent.isRemoved_merge (hr : r.Coherent) (habsorbed : absorbed ∈ r.active) (m : Nat) :
    (r.merge keep absorbed).isRemoved m = (decide (m = absorbed) || r.isRemoved m) :=
  isRemoved_remove ((mem_active.mp habsorbed).1.trans_eq hr.size_removed.symm)
    (.merged keep absorbed) m

/-- What is still to be removed after a merge was so before it. -/
theorem Coherent.mem_active_of_merge (hr : r.Coherent) (habsorbed : absorbed ∈ r.active)
    (hn : n ∈ (r.merge keep absorbed).active) : n ∈ r.active := by
  obtain ⟨hlt, hpresent, hfree⟩ := mem_active.mp hn
  rw [hr.isRemoved_merge habsorbed, Bool.or_eq_false_iff] at hpresent
  refine mem_active.mpr ⟨hlt.trans_eq ?_, hpresent.2, hfree⟩
  simp [Reduction.merge, Reduction.remove, redirect]

/-- The node that stays has the neighbours of both … -/
theorem Coherent.degree_merge_keep_le (hr : r.Coherent) (hkeep : keep ∈ r.active)
    (habsorbed : absorbed ∈ r.active) (hne : keep ≠ absorbed) :
    (r.merge keep absorbed).degree keep ≤
      r.remaining (r.neighbours keep ∪ r.neighbours absorbed) := by
  refine (degree_le_card fun m hm hpresent => ?_).trans_eq (card_remainder r _)
  rw [hr.isRemoved_merge habsorbed, Bool.or_eq_false_iff, decide_eq_false_iff_not] at hpresent
  obtain ⟨hkm, x, y, hx, hy, hxy⟩ := (hr.mem_neighbours_merge hkeep hne keep m).mp hm
  obtain rfl := eq_of_unify hy hkm.symm
  refine mem_remainder.mpr ⟨mem_union_iff.mpr ?_, hpresent.2⟩
  by_cases hxa : x = absorbed
  · exact .inr (hxa ▸ hxy)
  · rw [Removal.unify, if_neg hxa] at hx
    exact .inl (hx ▸ hxy)

/-- … and no other node has more neighbours than before. -/
theorem Coherent.degree_merge_le (hr : r.Coherent) (hkeep : keep ∈ r.active)
    (habsorbed : absorbed ∈ r.active) (hne : keep ≠ absorbed) (hn : n ≠ keep) :
    (r.merge keep absorbed).degree n ≤ r.degree n := by
  refine (degree_le_card fun m hm hpresent => ?_).trans (Finset.card_image_le
    (s := r.remainder (r.neighbours n)) (f := Removal.unify keep absorbed)) |>.trans_eq
      (card_remainder r _)
  rw [hr.isRemoved_merge habsorbed, Bool.or_eq_false_iff] at hpresent
  obtain ⟨-, x, y, hx, rfl, hxy⟩ := (hr.mem_neighbours_merge hkeep hne n m).mp hm
  obtain rfl := eq_of_unify hx hn
  refine Finset.mem_image.mpr ⟨y, mem_remainder.mpr ⟨hxy, ?_⟩, rfl⟩
  by_cases hya : y = absorbed
  · rw [hya]
    exact (mem_active.mp habsorbed).2.1
  · rw [Removal.unify, if_neg hya] at hpresent
    exact hpresent.2

/-- Whichever of two nodes stays, it has few neighbours if the two may be made one. -/
theorem remaining_lt_of_mayMerge {a b : Nat} (may : r.mayMerge a b = true) :
    r.remaining (r.neighbours (min a b) ∪ r.neighbours (max a b)) < r.registers := by
  unfold mayMerge at may
  rw [Bool.and_eq_true, decide_eq_true_eq] at may
  obtain hle | hle := Nat.le_total a b
  · rw [Nat.min_eq_left hle, Nat.max_eq_right hle]
    exact may.2
  · have hcomm : r.neighbours b ∪ r.neighbours a = r.neighbours a ∪ r.neighbours b :=
      Std.ExtTreeSet.ext_mem fun m => by
        rw [Std.ExtTreeSet.mem_union_iff, Std.ExtTreeSet.mem_union_iff, or_comm]
    rw [Nat.min_eq_right hle, Nat.max_eq_left hle, hcomm]
    exact may.2

end Merge

/-- A step gives up a node only if every node still to be removed has many neighbours. -/
theorem Phase.spill_notMem (hp : Phase r r') (hlow : ∀ n ∈ r.active, r.degree n < r.registers)
    (hkept : ∀ n, .spill n ∉ r.stack) (n : Nat) : .spill n ∉ r'.stack := by
  cases hp with
  | simplify | coalesce => exact not_mem_cons_of_ne_of_not_mem Removal.noConfusion (hkept n)
  | freeze _ _ _ _ => exact hkept n
  | @spill k hk _ stuck => exact absurd (hlow k hk) (Nat.not_lt_of_le (stuck k hk))

/-! ## Sparse graphs -/

/-- A **sparse** reduction: every node still to be removed has fewer neighbours than there
are registers, and no node was given up. -/
structure Sparse (r : Reduction) : Prop where
  low : ∀ n ∈ r.active, r.degree n < r.registers
  kept : ∀ n, .spill n ∉ r.stack

/-- The step from `r` to `r'` **crowds** a node: a move edge is given up, and one of its two
nodes, which had fewer neighbours than there are registers, no longer has. -/
def Crowds (r r' : Reduction) : Prop := ∃ n m, m ∈ r.related n ∧ r' = r.freezeEdge n m ∧
    ∃ x ∈ [n, m], r.degree x < r.registers ∧ r.registers ≤ r'.degree x

/-- Freezing leaves a reduction sparse, unless it crowds one of the two nodes. -/
theorem Sparse.freezeEdge (h : r.Sparse) (hr : r.Coherent) {n m : Nat} (hn : n ∈ r.active)
    (hm : m ∈ r.related n) : (r.freezeEdge n m).Sparse ∨ Crowds r (r.freezeEdge n m) := by
  by_cases hcrowds : ∃ x ∈ [n, m], r.registers ≤ (r.freezeEdge n m).degree x
  · obtain ⟨x, hx, hle⟩ := hcrowds
    refine .inr ⟨n, m, hm, rfl, x, hx, h.low x ?_, hle⟩
    obtain rfl | rfl := mem_pair.mp hx
    · exact hn
    · exact hr.related_active hm
  · refine .inl ⟨fun x hx => ?_, h.kept⟩
    by_cases hend : x ∈ [n, m]
    · exact Nat.lt_of_not_le fun hle => hcrowds ⟨x, hend, hle⟩
    · -- another node has the neighbours it had
      have hactive : x ∈ r.active := by
        obtain ⟨hlt, hpresent, hfree⟩ := mem_active.mp hx
        exact mem_active.mpr ⟨by simpa [Reduction.freezeEdge, connect] using hlt, hpresent, hfree⟩
      refine Nat.lt_of_le_of_lt (degree_le_degree r fun y hy hpresent => ⟨?_, hpresent⟩)
        (h.low x hactive)
      rw [mem_pair, not_or] at hend
      obtain hy | ⟨heq, -⟩ | ⟨heq, -⟩ := (hr.mem_neighbours_freezeEdge hn hm x y).mp hy
      · exact hy
      · exact absurd heq hend.1
      · exact absurd heq hend.2

/-- **Every phase leaves a reduction sparse, or crowds a node.** -/
theorem Sparse.phase (h : r.Sparse) (hr : r.Coherent) (hp : Phase r r') :
    r'.Sparse ∨ Crowds r r' := by
  have hkept := hp.spill_notMem h.low h.kept
  cases hp with
  | @simplify k hk _ _ =>
    have hremoved := isRemoved_remove ((mem_active.mp hk).1.trans_eq hr.size_removed.symm)
      (.simplified k)
    have hback : ∀ {m : Nat}, (r.remove k (.simplified k)).isRemoved m = false →
        r.isRemoved m = false := by
      intro m hpresent
      rw [hremoved, Bool.or_eq_false_iff] at hpresent
      exact hpresent.2
    refine .inl ⟨fun n hn => ?_, hkept⟩
    obtain ⟨hlt, hpresent, hfree⟩ := mem_active.mp hn
    exact Nat.lt_of_le_of_lt (degree_le_degree r fun m hm hpresent => ⟨hm, hback hpresent⟩)
      (h.low n (mem_active.mpr ⟨hlt, hback hpresent, hfree⟩))
  | @coalesce a b ha hb may _ =>
    obtain ⟨hkeep, habsorbed, hne⟩ := hr.ends_active ha hb
    refine .inl ⟨fun n hn => ?_, hkept⟩
    by_cases hnk : n = min a b
    · subst hnk
      exact Nat.lt_of_le_of_lt (hr.degree_merge_keep_le hkeep habsorbed hne)
        (remaining_lt_of_mayMerge may)
    · exact Nat.lt_of_le_of_lt (hr.degree_merge_le hkeep habsorbed hne hnk)
        (h.low n (hr.mem_active_of_merge habsorbed hn))
  | freeze hn hm _ _ => exact h.freezeEdge hr hn hm
  | @spill n hn _ stuck => exact absurd (h.low n hn) (Nat.not_lt_of_le (stuck n hn))

/-! ## Whole reductions -/

/-- **A run stays sparse, or one of its steps crowds a node.** -/
theorem Sparse.run (h : r.Sparse) (hr : r.Coherent) (fuel : Nat) :
    (r.run fuel).Sparse ∨ ∃ s s', Reaches r s ∧ s.step? = some s' ∧ Crowds s s' := by
  induction fuel generalizing r with
  | zero => exact .inl h
  | succ fuel ih =>
    unfold Reduction.run
    split
    · next r' hnext =>
      have hp := phase_of_step? hnext
      obtain h' | hcrowds := h.phase hr hp
      · obtain hrun | ⟨s, s', hreaches, hrest⟩ := ih h' (hr.phase hp)
        · exact .inl hrun
        · exact .inr ⟨s, s', .head hnext hreaches, hrest⟩
      · exact .inr ⟨r, r', .refl, hnext, hcrowds⟩
    · exact .inl h

/-- A graph whose nodes have few neighbours is where a sparse reduction starts. -/
theorem sparse_new {g : Interference} {registers : Nat} (avoid : TempSet)
    (hfew : ∀ i < g.nodes.size, g.precolored i = false → (g.adjacent i).size < registers) :
    (new g registers avoid).Sparse := by
  refine ⟨fun n hn => ?_, fun n hmem => not_mem_nil hmem⟩
  rw [mem_active, size_adjacent_new, isPrecolored_new] at hn
  refine Nat.lt_of_le_of_lt (degree_le_size _ n) ?_
  rw [neighbours_new]
  exact hfew n hn.1 hn.2.2

end Reduction

/-! ## Groups of copies -/

/-- A **crowd** encloses a group of nodes that are copied only to one another: it holds the
group and all that interferes with it. -/
structure Interference.Encloses (g : Interference) (crowd group : Finset Nat) : Prop where
  moves : ∀ x ∈ group, ∀ y ∈ g.moves x, y ∈ group
  subset : group ⊆ crowd
  adjacent : ∀ x ∈ group, ∀ y ∈ g.adjacent x, y ∈ crowd

theorem Interference.encloses_iff {g : Interference} {crowd group : Finset Nat} :
    g.Encloses crowd group ↔ (∀ x ∈ group, ∀ y ∈ (g.moves x).toList, y ∈ group) ∧ group ⊆ crowd ∧
      ∀ x ∈ group, ∀ y ∈ (g.adjacent x).toList, y ∈ crowd := by
  simp only [mem_toList]
  exact ⟨fun h => ⟨h.moves, h.subset, h.adjacent⟩, fun h => ⟨h.1, h.2.1, h.2.2⟩⟩

instance (g : Interference) (crowd group : Finset Nat) : Decidable (g.Encloses crowd group) :=
  decidable_of_iff _ Interference.encloses_iff.symm

namespace Reduction

variable {g : Interference} {r r' : Reduction} {crowd group : Finset Nat}

/-- The class of a node of a group is part of the group. -/
theorem Joins.mem_group (h : Joins g r) (hcrowd : g.Encloses crowd group) {x : Nat} (hn : n ∈ group)
    (hx : Removal.standsFor r.stack n = Removal.standsFor r.stack x) : x ∈ group := by
  induction h.connected hx with
  | refl => exact hn
  | tail _ hlink ih => exact hcrowd.moves _ (ih (hx.trans hlink.2.symm)) _ hlink.1

/-- **A node has fewer neighbours than there are nodes in the crowd around it**, at any time. -/
theorem Joins.degree_lt_card (h : Joins g r) (hr : r.Coherent) (hcrowd : g.Encloses crowd group)
    (hn : n ∈ r.active) (hgroup : n ∈ group) : r.degree n < crowd.card := by
  have hself : Removal.standsFor r.stack n = n :=
    Removal.standsFor_eq_self fun k hmem => hr.notMem_stack hn hmem rfl
  have hmem : n ∈ crowd.image (Removal.standsFor r.stack) :=
    Finset.mem_image.mpr ⟨n, hcrowd.subset hgroup, hself⟩
  calc r.degree n ≤ ((crowd.image (Removal.standsFor r.stack)).erase n).card := by
        refine degree_le_card fun m hm _ => Finset.mem_erase.mpr ⟨(hr.neighbours_ne hm).symm, ?_⟩
        obtain ⟨x, y, hx, hy, hxy⟩ := h.neighbours hm
        have hxgroup := h.mem_group hcrowd hgroup (hself.trans hx.symm)
        refine Finset.mem_image.mpr ⟨y, ?_, hy⟩
        exact hxy.elim (hcrowd.adjacent x hxgroup y) fun hy =>
          hcrowd.subset (hcrowd.moves x hxgroup y hy)
    _ < (crowd.image (Removal.standsFor r.stack)).card := Finset.card_erase_lt_of_mem hmem
    _ ≤ crowd.card := Finset.card_image_le

/-- Where every node is enclosed by a crowd no larger than the number of registers, no node is
given up. -/
theorem spill_notMem_exhaust (hg : g.WellFormed) {registers : Nat} (avoid : TempSet)
    (hcrowds : ∀ i < g.nodes.size, g.precolored i = false →
      ∃ crowd group, g.Encloses crowd group ∧ i ∈ group ∧ crowd.card ≤ registers) (n : Nat) :
    .spill n ∉ (new g registers avoid).exhaust.stack := by
  have hrun := run_induction (P := fun r => (r.Coherent ∧ Tracks g r ∧ Joins g r) ∧
    r.registers = registers ∧ ∀ n, .spill n ∉ r.stack) (fun {r r'} hp h => ?_)
    (new g registers avoid).stepBound ⟨⟨coherent_new hg registers avoid,
      tracks_new g registers avoid, joins_new g registers avoid⟩, rfl,
      fun _ hmem => not_mem_nil hmem⟩
  · exact hrun.2.2 n
  · obtain ⟨⟨hr, ht, hj⟩, hcount, hkept⟩ := h
    have hlow : ∀ n ∈ r.active, r.degree n < r.registers := by
      intro n hn
      obtain ⟨hlt, -, hfree⟩ := mem_active.mp hn
      obtain ⟨crowd, group, hcrowd, hgroup, hcard⟩ :=
        hcrowds n (hlt.trans_eq ht.size_eq) ((ht.precolored_eq n).symm.trans hfree)
      rw [hcount]
      exact Nat.lt_of_lt_of_le (hj.degree_lt_card hr hcrowd hn hgroup) hcard
    exact ⟨⟨hr.phase hp, ht.phase hr hp, hj.phase hg hr hp⟩, hp.registers_eq.trans hcount,
      hp.spill_notMem hlow hkept⟩

end Reduction

namespace Interference

/-- **Low pressure.** If every node that is not coloured from the start has fewer neighbours
than there are registers, no temp is spilled, unless a move edge is given up that crowds one of
its two nodes. And if every such node is enclosed, together with the nodes it is copied to or
from, by a crowd no larger than the number of registers, no temp is spilled at all. -/
theorem colorWith_spills_nothing_unless_crowded (code : List Instruction) (live : Liveness)
    {registers : Nat} (hregisters : registers ≤ 64) :
    let g := build code live registers
    ((∀ i < g.nodes.size, g.precolored i = false → (g.adjacent i).size < registers) →
      (g.colorWith registers).1.spilled = [] ∨ ∃ r r',
        (Reduction.new g registers ∅).Reaches r ∧ r.step? = some r' ∧ r.Crowds r') ∧
    ((∀ i < g.nodes.size, g.precolored i = false →
        ∃ crowd group, g.Encloses crowd group ∧ i ∈ group ∧ crowd.card ≤ registers) →
      (g.colorWith registers).1.spilled = []) := by
  intro g
  have hnodes : g.Nodes registers := nodes_build code live registers
  have hg : g.WellFormed := wellFormed_build code live registers
  refine ⟨fun hfew => ?_, fun hcrowds => spilled_eq_nil_of_forall_notMem hnodes hg ∅ hregisters
    (Reduction.spill_notMem_exhaust hg ∅ hcrowds)⟩
  obtain hsparse | hcrowds := (Reduction.sparse_new ∅ hfew).run
    (Reduction.coherent_new hg registers ∅) (Reduction.new g registers ∅).stepBound
  · exact .inl (spilled_eq_nil_of_forall_notMem hnodes hg ∅ hregisters hsparse.kept)
  · exact .inr hcrowds

/-- Two temps are copied, and both calls clobber `eax` while one of the four is live. -/
def copyRing : List Instruction :=
  let a : Temp := ⟨7, .plain "a"⟩
  let b : Temp := ⟨8, .plain "b"⟩
  let x : Temp := ⟨9, .plain "x"⟩
  let y : Temp := ⟨10, .plain "y"⟩
  [.enter [], .movImm a 1, .callDirect ⟨"f"⟩ [] [.fixed .eax], .mov b a, .movImm x 2, .cmpImm b 0,
    .mov y x, .callDirect ⟨"f"⟩ [] [.fixed .eax], .ret [y]]

/-- With two registers, no temp of the ring has more than one conflict, and yet one of them is
spilled: the two copies, once given up, close a ring of five. -/
theorem colorWith_spills_copyRing :
    ∃ live s, (Liveness.analyze copyRing).run.run {} = (.ok live, s) ∧
      let g := build copyRing live 2
      (∀ i < g.nodes.size, g.precolored i = false → (g.adjacent i).size < 2) ∧
      (g.colorWith 2).1.spilled = [⟨7, .plain "a"⟩] :=
  ⟨_, _, rfl, by decide +kernel, by decide +kernel⟩

/-- With two registers, a step that takes the ring apart crowds a node; four registers are
enough for either pair of copies and what interferes with it. -/
theorem colorWith_spills_nothing_unless_crowded_copyRing :
    ∃ live s, (Liveness.analyze copyRing).run.run {} = (.ok live, s) ∧ 2 ≤ 64 ∧ 4 ≤ 64 ∧
      (let g := build copyRing live 2
      (∀ i < g.nodes.size, g.precolored i = false → (g.adjacent i).size < 2) ∧
      ∃ r r', (Reduction.new g 2 ∅).Reaches r ∧ r.step? = some r' ∧ r.Crowds r') ∧
      let g := build copyRing live 4
      (∀ i < g.nodes.size, g.precolored i = false →
        ∃ crowd group, g.Encloses crowd group ∧ i ∈ group ∧ crowd.card ≤ 4) ∧
      (g.colorWith 4).1.spilled = [] := by
  refine ⟨_, _, rfl, by decide, by decide, ⟨by decide +kernel, ?_⟩, ?_⟩
  · exact ((colorWith_spills_nothing_unless_crowded copyRing _ (by decide)).1
      (by decide +kernel)).resolve_left (by decide +kernel)
  · intro g
    have hcrowds : ∀ i < g.nodes.size, g.precolored i = false →
        ∃ p ∈ ([({0, 1, 2, 3}, {0, 2}), ({1, 2, 3, 4}, {3, 4})] : List (Finset Nat × Finset Nat)),
          g.Encloses p.1 p.2 ∧ i ∈ p.2 ∧ p.1.card ≤ 4 := by
      decide +kernel
    have hexists : ∀ i < g.nodes.size, g.precolored i = false →
        ∃ crowd group, g.Encloses crowd group ∧ i ∈ group ∧ crowd.card ≤ 4 := by
      intro i hi hfree
      obtain ⟨p, -, hp⟩ := hcrowds i hi hfree
      exact ⟨p.1, p.2, hp⟩
    exact ⟨hexists, (colorWith_spills_nothing_unless_crowded copyRing _ (by decide)).2 hexists⟩

end Interference

end TreeBackend
