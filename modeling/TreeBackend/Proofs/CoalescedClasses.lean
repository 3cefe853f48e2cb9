import TreeBackend.Proofs.Recoloring

/-!
# Temps that were made one

Merges chain: a node that stayed in one merge may be absorbed in the next. The
temps that end up as one form a **class**, and what a class looks like from outside
– in the graph that was built, and in the colours that come out – does not depend on
the order of the merges.

A merge is made along a move edge of the reduced graph, and such an edge is left
over from a move edge of the built graph between members of the two classes
(`Reduction.Joins`). So the built graph's move edges connect every class. That no
edge of the built graph runs inside a class is what `Reduction.Tracks` says: an edge
lives on between the nodes that stand for its ends, and no edge joins a node to
itself. And since an absorbed node copies the colour of the node that stands for it,
a class has one colour or none.
-/

namespace TreeBackend

open List Option Coloring

variable {keep absorbed i : Nat}

/-! ## Nodes that stand for others -/

namespace Removal

variable {stack : List Removal}

/-- A stack is **orderly** if no removal speaks of a node that was removed before it,
and a merge is of two nodes. -/
def Orderly (stack : List Removal) : Prop := (∀ how ∈ stack, how.nodes.Nodup) ∧
    stack.Pairwise fun later earlier => earlier.node ∉ later.nodes

theorem Orderly.tail {how : Removal} (h : Orderly (how :: stack)) : Orderly stack :=
  ⟨(forall_mem_cons.mp h.1).2, (pairwise_cons.mp h.2).2⟩

/-- The nodes of a merge are two, and neither was absorbed before. -/
theorem Orderly.head (h : Orderly (.merged keep absorbed :: stack)) :
    keep ≠ absorbed ∧ (∀ k, .merged k keep ∉ stack) ∧ ∀ k, .merged k absorbed ∉ stack := by
  have hearlier := (pairwise_cons.mp h.2).1
  exact ⟨pairwise_pair.mp (h.1 _ mem_cons_self),
    fun k hk => hearlier _ hk (mem_pair.mpr (.inl rfl)),
    fun k hk => hearlier _ hk (mem_pair.mpr (.inr rfl))⟩

/-- A node that was never absorbed stands for itself. -/
theorem standsFor_eq_self {n : Nat} (h : ∀ k, .merged k n ∉ stack) : standsFor stack n = n := by
  induction stack with
  | nil => rfl
  | cons how stack ih =>
    have hrest := ih fun k hk => h k (mem_cons_of_mem _ hk)
    cases how with
    | simplified | spill => exact hrest
    | merged keep absorbed =>
      rw [standsFor, hrest]
      refine if_neg ?_
      rintro rfl
      exact h keep mem_cons_self

/-- A node that stands for another was never absorbed. -/
theorem Orderly.notMem_standsFor (h : Orderly stack) (n k : Nat) :
    .merged k (standsFor stack n) ∉ stack := by
  induction stack with
  | nil => exact not_mem_nil
  | cons how stack ih =>
    have hrest := ih h.tail
    cases how with
    | simplified | spill => exact not_mem_cons_of_ne_of_not_mem Removal.noConfusion hrest
    | merged keep absorbed =>
      obtain ⟨hne, hkeep, -⟩ := h.head
      rw [standsFor, unify]
      split
      · exact not_mem_cons_of_ne_of_not_mem (fun heq => hne (Removal.merged.inj heq).2) (hkeep k)
      · next hroot =>
        exact not_mem_cons_of_ne_of_not_mem (fun heq => hroot (Removal.merged.inj heq).2) hrest

/-- One node stands for both nodes of a merge. -/
theorem Orderly.standsFor_eq (h : Orderly stack) (hmem : .merged keep absorbed ∈ stack) :
    standsFor stack keep = standsFor stack absorbed := by
  induction stack with
  | nil => cases hmem
  | cons how stack ih =>
    obtain rfl | hmem := mem_cons.mp hmem
    · obtain ⟨hne, hkeep, habsorbed⟩ := h.head
      rw [standsFor, standsFor, standsFor_eq_self hkeep, standsFor_eq_self habsorbed]
      exact (if_neg hne).trans (if_pos rfl).symm
    · have hrest := ih h.tail hmem
      cases how with
      | simplified | spill => exact hrest
      | merged _ _ => exact congrArg (unify _ _) hrest

/-- A node and the node that stands for it were made one. -/
theorem eqvGen_standsFor (stack : List Removal) (n : Nat) :
    Relation.EqvGen (fun keep absorbed => .merged keep absorbed ∈ stack) n (standsFor stack n) := by
  induction stack with
  | nil => exact .refl n
  | cons how stack ih =>
    have hrest := ih.mono fun _ _ hmem => mem_cons_of_mem how hmem
    cases how with
    | simplified | spill => exact hrest
    | merged keep absorbed =>
      rw [standsFor, unify]
      split
      · next heq =>
        rw [heq] at hrest
        exact hrest.trans _ _ _ (.symm _ _ (.rel _ _ mem_cons_self))
      · exact hrest

/-- A node stands for another only after a merge in which it stayed. -/
theorem standsFor_eq_or (stack : List Removal) (n : Nat) :
    standsFor stack n = n ∨ ∃ absorbed, .merged (standsFor stack n) absorbed ∈ stack := by
  induction stack with
  | nil => exact .inl rfl
  | cons how stack ih =>
    have hrest : standsFor stack n = n ∨
        ∃ absorbed, .merged (standsFor stack n) absorbed ∈ how :: stack :=
      ih.imp_right fun h => h.imp fun _ hmem => mem_cons_of_mem how hmem
    cases how with
    | simplified | spill => exact hrest
    | merged keep absorbed =>
      rw [standsFor, unify]
      split
      · exact .inr ⟨absorbed, mem_cons_self⟩
      · exact hrest

/-- What becomes one in a merge was one before, or is the two nodes of the merge. -/
theorem eq_or_of_unify_eq {x y : Nat} (h : unify keep absorbed x = unify keep absorbed y) :
    x = y ∨ x = keep ∧ y = absorbed ∨ x = absorbed ∧ y = keep := by
  unfold unify at h
  grind

end Removal

namespace Reduction

variable {g : Interference} {r r' : Reduction}

theorem Coherent.orderly (h : r.Coherent) : Removal.Orderly r.stack :=
  ⟨fun _ hhow => (h.stack_nodes hhow).1, h.stack_order⟩

/-! ## Classes are connected -/

/-- A move edge of a graph between two nodes of one class, as far as the reduction has
come. -/
def Link (g : Interference) (r : Reduction) (x y : Nat) : Prop :=
  y ∈ g.moves x ∧ Removal.standsFor r.stack x = Removal.standsFor r.stack y

/-- The reduction **joins** nodes along the move edges of a graph: a move edge that is
left comes from one between members of the two classes, an edge comes from an edge or
from a move edge that was given up, and the members of a class are connected by move
edges inside it. -/
structure Joins (g : Interference) (r : Reduction) : Prop where
  related : ∀ {n m : Nat}, m ∈ r.related n → ∃ x y, Removal.standsFor r.stack x = n ∧
    Removal.standsFor r.stack y = m ∧ y ∈ g.moves x
  neighbours : ∀ {n m : Nat}, m ∈ r.neighbours n → ∃ x y, Removal.standsFor r.stack x = n ∧
    Removal.standsFor r.stack y = m ∧ (y ∈ g.adjacent x ∨ y ∈ g.moves x)
  connected : ∀ {x y : Nat}, Removal.standsFor r.stack x = Removal.standsFor r.stack y →
    Relation.ReflTransGen (Link g r) x y

/-- Whichever node stays, a merge is made along a move edge. -/
theorem Coherent.ends_related (h : r.Coherent) {a b : Nat} (hb : b ∈ r.related a) :
    max a b ∈ r.related (min a b) := by
  obtain hle | hle := Nat.le_total a b
  · rwa [Nat.min_eq_left hle, Nat.max_eq_right hle]
  · rw [Nat.min_eq_right hle, Nat.max_eq_left hle]
    exact h.related_symm hb

/-- A merge along a move edge leaves the members of its class connected. -/
theorem Joins.connected_merge (h : Joins g r) (hg : g.WellFormed) {keep absorbed : Nat}
    (hrelated : absorbed ∈ r.related keep) {x y : Nat}
    (heq : Removal.standsFor (r.merge keep absorbed).stack x =
      Removal.standsFor (r.merge keep absorbed).stack y) :
    Relation.ReflTransGen (Link g (r.merge keep absorbed)) x y := by
  have hold : ∀ {x y : Nat}, Removal.standsFor r.stack x = Removal.standsFor r.stack y →
      Relation.ReflTransGen (Link g (r.merge keep absorbed)) x y := fun hxy =>
    Relation.ReflTransGen.mono (fun _ _ hlink => ⟨hlink.1, congrArg (Removal.unify _ _) hlink.2⟩)
      _ _ (h.connected hxy)
  obtain ⟨u, v, hu, hv, huv⟩ := h.related hrelated
  -- the move edge that the merge was made along, from one class to the other
  have hends : Removal.standsFor (r.merge keep absorbed).stack u =
      Removal.standsFor (r.merge keep absorbed).stack v := by
    show Removal.unify _ _ _ = Removal.unify _ _ _
    rw [hu, hv, Removal.unify, Removal.unify, ite_self, if_pos rfl]
  obtain hsame | ⟨hx, hy⟩ | ⟨hx, hy⟩ := Removal.eq_or_of_unify_eq heq
  · exact hold hsame
  · exact ((hold (hx.trans hu.symm)).tail ⟨huv, hends⟩).trans (hold (hv.trans hy.symm))
  · exact ((hold (hx.trans hv.symm)).tail ⟨hg.moves_symm huv, hends.symm⟩).trans
      (hold (hu.trans hy.symm))

/-- **Every phase joins nodes along move edges.** -/
theorem Joins.phase (h : Joins g r) (hg : g.WellFormed) (hr : r.Coherent) (hp : Phase r r') :
    Joins g r' := by
  cases hp with
  | simplify | spill => exact ⟨h.related, h.neighbours, h.connected⟩
  | @freeze n m hn hm _ _ =>
    have hfrozen : ∀ {x y : Nat}, y ∈ r.related x → ∃ u v, Removal.standsFor r.stack u = x ∧
        Removal.standsFor r.stack v = y ∧ (v ∈ g.adjacent u ∨ v ∈ g.moves u) := by
      intro x y hy
      obtain ⟨u, v, hu, hv, huv⟩ := h.related hy
      exact ⟨u, v, hu, hv, .inr huv⟩
    refine ⟨fun hmem => h.related ((hr.mem_related_freezeEdge hn hm _ _).mp hmem).1,
      fun {x y} hmem => ?_, h.connected⟩
    obtain hy | ⟨rfl, rfl⟩ | ⟨rfl, rfl⟩ := (hr.mem_neighbours_freezeEdge hn hm x y).mp hmem
    · exact h.neighbours hy
    · exact hfrozen hm
    · exact hfrozen (hr.related_symm hm)
  | @coalesce a b ha hb _ _ =>
    obtain ⟨hkeep, -, hne⟩ := hr.ends_active ha hb
    refine ⟨fun {n m} hmem => ?_, fun {n m} hmem => ?_, h.connected_merge hg (hr.ends_related hb)⟩
    · obtain ⟨⟨-, x, y, rfl, rfl, hxy⟩, -⟩ := (hr.mem_related_merge hkeep hne n m).mp hmem
      obtain ⟨u, v, rfl, rfl, huv⟩ := h.related hxy
      exact ⟨u, v, rfl, rfl, huv⟩
    · obtain ⟨-, x, y, rfl, rfl, hxy⟩ := (hr.mem_neighbours_merge hkeep hne n m).mp hmem
      obtain ⟨u, v, rfl, rfl, huv⟩ := h.neighbours hxy
      exact ⟨u, v, rfl, rfl, huv⟩

theorem joins_new (g : Interference) (registers : Nat) (avoid : TempSet) :
    Joins g (new g registers avoid) := by
  refine ⟨fun {n m} hm => ⟨n, m, rfl, rfl, ?_⟩, fun {n m} hm => ⟨n, m, rfl, rfl, .inl ?_⟩,
    fun {x y} hxy => ?_⟩
  · rwa [← related_new g registers avoid]
  · rwa [← neighbours_new g registers avoid]
  · obtain rfl : x = y := hxy
    exact .refl

theorem joins_exhaust (hg : g.WellFormed) (registers : Nat) (avoid : TempSet) :
    Joins g (new g registers avoid).exhaust :=
  (run_induction (P := fun r => r.Coherent ∧ Joins g r)
    (fun hp h => ⟨h.1.phase hp, h.2.phase hg h.1 hp⟩) _
    ⟨coherent_new hg registers avoid, joins_new g registers avoid⟩).2

/-! ## Classes and the graph -/

section Classes

variable (hr : r.Coherent) (ht : Tracks g r) {j : Nat}
  (hclass : Removal.standsFor r.stack i = Removal.standsFor r.stack j)

include hr ht hclass

/-- No edge of the graph runs inside a class. -/
theorem Tracks.notMem_adjacent : j ∉ g.adjacent i :=
  fun hj => hr.neighbours_ne (ht.mem_neighbours hj) hclass

/-- A node that is coloured from the start is in no class but its own. -/
theorem Tracks.precolored_eq_false (hne : i ≠ j) : g.precolored i = false := by
  have hmerged : ∀ {keep absorbed : Nat}, .merged keep absorbed ∈ r.stack →
      i ∈ [keep, absorbed] → g.precolored i = false := fun hmem hi =>
    (ht.precolored_eq i).symm.trans ((hr.stack_nodes hmem).2 i hi).2
  by_cases habsorbed : ∃ keep, .merged keep i ∈ r.stack
  · obtain ⟨keep, hmem⟩ := habsorbed
    exact hmerged hmem (mem_pair.mpr (.inr rfl))
  · rw [not_exists] at habsorbed
    rw [Removal.standsFor_eq_self habsorbed] at hclass
    obtain hself | ⟨absorbed, hmem⟩ := Removal.standsFor_eq_or r.stack j
    · exact absurd (hclass.trans hself) hne
    · rw [← hclass] at hmem
      exact hmerged hmem (mem_pair.mpr (.inl rfl))

end Classes

end Reduction

/-! ## The colours of classes -/

namespace Coloring

variable {r : Reduction} {colors : Array NodeColor}

/-- After selection a merged node has the colour of the node it was made one with. -/
theorem shared_select (hr : r.Coherent) (hsize : colors.size = r.adjacent.size)
    (hmem : .merged keep absorbed ∈ r.stack) :
    (select r colors).getD absorbed .unset = (select r colors).getD keep .unset :=
  (restore_induction (P := fun back _ colors => colors.size = r.adjacent.size ∧
      ∀ {keep absorbed : Nat}, .merged keep absorbed ∈ back →
        colors.getD absorbed .unset = colors.getD keep .unset)
    (fun hstack h => ⟨(size_restore _).trans h.1, shared_restore hr h.1 hstack h.2⟩)
    (nil_append _).symm
    ⟨(size_markSpills _ _).trans hsize, fun hmem => absurd hmem not_mem_nil⟩).2 hmem

theorem mem_mergedTemps {g : Interference} {a b : Temp} :
    (a, b) ∈ mergedTemps g r ↔ ∃ keep absorbed n m, .merged keep absorbed ∈ r.stack ∧
      g.nodes[keep]? = some n ∧ g.nodes[absorbed]? = some m ∧ n.temp = a ∧ m.temp = b := by
  unfold mergedTemps
  rw [mem_filterMap]
  constructor
  · rintro ⟨how, hmem, heq⟩
    cases how with
    | simplified | spill => cases heq
    | merged keep absorbed =>
      dsimp only at heq
      split at heq
      · next n m hn hm =>
        obtain ⟨ha, hb⟩ := Prod.mk.inj (some.inj heq)
        exact ⟨keep, absorbed, n, m, mem_reverse.mp hmem, hn, hm, ha, hb⟩
      · cases heq
  · rintro ⟨keep, absorbed, n, m, hmem, hn, hm, rfl, rfl⟩
    refine ⟨_, mem_reverse.mpr hmem, ?_⟩
    dsimp only
    rw [hn, hm]

/-- Temps that were **made one**, in one merge or through several. -/
def Unified (coloring : Coloring) : Temp → Temp → Prop :=
  Relation.EqvGen fun kept absorbed => (kept, absorbed) ∈ coloring.merges

end Coloring

namespace Interference

variable {g : Interference} {registers : Nat} {avoid : TempSet}

/-- The node that stands for a node when the graph has been taken apart. -/
def representative (g : Interference) (registers : Nat) (avoid : TempSet) : Nat → Nat :=
  Removal.standsFor (Reduction.new g registers avoid).exhaust.stack

/-- A node that stands for others was never absorbed … -/
theorem merged_representative_notMem (hg : g.WellFormed) (i keep : Nat) :
    .merged keep (g.representative registers avoid i) ∉
      (Reduction.new g registers avoid).exhaust.stack :=
  (Reduction.exhaust_new hg registers avoid).1.orderly.notMem_standsFor i keep

/-- … and stands for itself. -/
theorem representative_representative (hg : g.WellFormed) (i : Nat) :
    g.representative registers avoid (g.representative registers avoid i) =
      g.representative registers avoid i :=
  Removal.standsFor_eq_self (merged_representative_notMem hg i)

/-- The members of a class end up with one colour. -/
theorem finalColors_representative (hg : g.WellFormed) (i : Nat) :
    (g.finalColors registers avoid).getD (g.representative registers avoid i) .unset =
      (g.finalColors registers avoid).getD i .unset := by
  obtain ⟨hr, ht, -⟩ := Reduction.exhaust_new hg registers avoid
  exact getD_standsFor _ (shared_select hr (Array.size_map.trans ht.size_eq.symm)) i

/-! ## From nodes to temps -/

/-- The temp of a node. -/
def tempOf (g : Interference) (i : Nat) : Temp := (g.nodes[i]?.map (·.temp)).getD .framePointer

variable {n : InterferenceNode}

theorem tempOf_eq (hn : g.nodes[i]? = some n) : g.tempOf i = n.temp := by
  rw [tempOf, hn]
  rfl

/-- The number of a node is that of its temp. -/
theorem Nodes.index?_eq (hnodes : g.Nodes registers) (hn : g.nodes[i]? = some n) :
    g.index? n.temp = some i := by
  cases hindex : g.index? n.temp with
  | none => exact absurd rfl (index?_eq_none_iff.mp hindex hn)
  | some j =>
    obtain ⟨m, hm, ht⟩ := exists_node_of_index? hindex
    rw [hnodes.distinct hm hn ht]

/-- The node of a graph, once the graph is coloured. -/
theorem node_colorAvoiding (avoid : TempSet) (hn : g.nodes[i]? = some n) :
    (g.colorAvoiding registers avoid).2.nodes[i]? =
      some { n with color := (g.finalColors registers avoid).getD i .unset } := by
  rw [getElem?_nodes_colorAvoiding, hn]
  rfl

/-- The merges of temps are those of their nodes. -/
theorem mem_merges_colorAvoiding {a b : Temp} :
    (a, b) ∈ (g.colorAvoiding registers avoid).1.merges ↔ ∃ keep absorbed n m,
      .merged keep absorbed ∈ (Reduction.new g registers avoid).exhaust.stack ∧
      g.nodes[keep]? = some n ∧ g.nodes[absorbed]? = some m ∧ n.temp = a ∧ m.temp = b := by
  refine mem_mergedTemps.trans ⟨?_, ?_⟩
  · rintro ⟨keep, absorbed, n, m, hmem, hn, hm, rfl, rfl⟩
    obtain ⟨x, hx, rfl⟩ := exists_node_of_colorAvoiding hn
    obtain ⟨y, hy, rfl⟩ := exists_node_of_colorAvoiding hm
    exact ⟨keep, absorbed, x, y, hmem, hx, hy, rfl, rfl⟩
  · rintro ⟨keep, absorbed, n, m, hmem, hn, hm, rfl, rfl⟩
    exact ⟨keep, absorbed, { n with color := (g.finalColors registers avoid).getD keep .unset },
      { m with color := (g.finalColors registers avoid).getD absorbed .unset }, hmem,
      node_colorAvoiding avoid hn, node_colorAvoiding avoid hm, rfl, rfl⟩

section Temps

variable (hnodes : g.Nodes registers) (hg : g.WellFormed) (avoid : TempSet)

include hnodes hg

/-- What was made one with a temp that has a node has a node of the same class. -/
theorem exists_node_of_unified {n : InterferenceNode} (hn : g.nodes[i]? = some n) {b : Temp}
    (h : (g.colorAvoiding registers avoid).1.Unified n.temp b) :
    ∃ j m, g.nodes[j]? = some m ∧ m.temp = b ∧
      g.representative registers avoid i = g.representative registers avoid j := by
  have horderly := (Reduction.exhaust_new hg registers avoid).1.orderly
  -- a merge does not change which node stands for a temp
  have hkernel : Equivalence fun a b => (g.index? a).map (g.representative registers avoid) =
      (g.index? b).map (g.representative registers avoid) :=
    eq_equivalence.comap _
  have hclass := hkernel.eqvGen_iff.mp <| h.mono fun kept absorbed hmem => by
    obtain ⟨x, y, u, v, hmerged, hu, hv, rfl, rfl⟩ := mem_merges_colorAvoiding.mp hmem
    rw [hnodes.index?_eq hu, hnodes.index?_eq hv]
    exact congrArg some (horderly.standsFor_eq hmerged)
  rw [hnodes.index?_eq hn] at hclass
  obtain ⟨j, hj, heq⟩ := map_eq_some_iff.mp hclass.symm
  obtain ⟨m, hm, ht⟩ := exists_node_of_index? hj
  exact ⟨j, m, hm, ht, heq.symm⟩

omit hnodes in
/-- Temps whose nodes are in one class were made one. -/
theorem unified_of_representative {j : Nat}
    (h : g.representative registers avoid i = g.representative registers avoid j) :
    (g.colorAvoiding registers avoid).1.Unified (g.tempOf i) (g.tempOf j) := by
  obtain ⟨hr, ht, -⟩ := Reduction.exhaust_new hg registers avoid
  have hunified : Equivalence fun x y =>
      (g.colorAvoiding registers avoid).1.Unified (g.tempOf x) (g.tempOf y) :=
    (Relation.EqvGen.is_equivalence _).comap g.tempOf
  -- a node and its representative were made one, and so were their temps
  have hself : ∀ k, (g.colorAvoiding registers avoid).1.Unified (g.tempOf k)
      (g.tempOf (g.representative registers avoid k)) := by
    intro k
    refine hunified.eqvGen_iff.mp ((Removal.eqvGen_standsFor _ k).mono fun keep absorbed hmem => ?_)
    have hnode : ∀ x ∈ [keep, absorbed], ∃ n, g.nodes[x]? = some n := fun x hx =>
      ⟨_, Array.getElem?_eq_getElem (((hr.stack_nodes hmem).2 x hx).1.trans_eq ht.size_eq)⟩
    obtain ⟨n, hn⟩ := hnode keep (mem_pair.mpr (.inl rfl))
    obtain ⟨m, hm⟩ := hnode absorbed (mem_pair.mpr (.inr rfl))
    exact .rel _ _ (mem_merges_colorAvoiding.mpr
      ⟨keep, absorbed, n, m, hmem, hn, hm, (tempOf_eq hn).symm, (tempOf_eq hm).symm⟩)
  exact hunified.trans (hself i) (h ▸ hunified.symm (hself j))

/-- A class is connected by move edges between the temps of its nodes. -/
theorem connected_of_representative {j : Nat}
    (h : g.representative registers avoid i = g.representative registers avoid j) :
    Relation.ReflTransGen (fun x y => g.moveRelated x y = true ∧
      (g.colorAvoiding registers avoid).1.Unified x y) (g.tempOf i) (g.tempOf j) := by
  have hlinks := (Reduction.joins_exhaust hg registers avoid).connected h
  refine hlinks.lift g.tempOf fun x y hlink => ⟨?_, unified_of_representative hg avoid hlink.2⟩
  have hindex : ∀ {x y : Nat}, y ∈ g.moves x → g.index? (g.tempOf y) = some y := by
    intro x y hy
    have hn := Array.getElem?_eq_getElem (hg.moves_lt hy)
    rw [tempOf_eq hn, hnodes.index?_eq hn]
  unfold moveRelated
  rw [hindex (hg.moves_symm hlink.1), hindex hlink.1]
  exact Std.ExtTreeSet.contains_iff_mem.mpr hlink.1

/-- A temp is coloured or spilled as the node is that stands for its own. -/
theorem outcome_of_node {n : InterferenceNode} (hn : g.nodes[i]? = some n) :
    (∀ c, (g.colorAvoiding registers avoid).1.colors[n.temp]? = some c ↔
      (g.finalColors registers avoid).getD (g.representative registers avoid i) .unset = .color c) ∧
    (n.temp ∈ (g.colorAvoiding registers avoid).1.spilled ↔ ∀ c,
      (g.finalColors registers avoid).getD (g.representative registers avoid i) .unset ≠
        .color c) := by
  have hdistinct : ∀ {i j : Nat} {n m : InterferenceNode},
      (g.colorAvoiding registers avoid).2.nodes[i]? = some n →
      (g.colorAvoiding registers avoid).2.nodes[j]? = some m → n.temp = m.temp → i = j :=
    distinct_colorAvoiding hnodes.distinct
  rw [finalColors_representative hg]
  exact ⟨Coloring.getElem?_colors_iff hdistinct (node_colorAvoiding avoid hn),
    mem_spilled_iff hdistinct (node_colorAvoiding avoid hn)⟩

/-- The temps of a class are treated alike. -/
theorem outcome_of_class (i : Nat) :
    (∃ c, ∀ {j : Nat} {m : InterferenceNode}, g.nodes[j]? = some m →
      g.representative registers avoid i = g.representative registers avoid j →
      (g.colorAvoiding registers avoid).1.colors[m.temp]? = some c ∧
        m.temp ∉ (g.colorAvoiding registers avoid).1.spilled) ∨
    ∀ {j : Nat} {m : InterferenceNode}, g.nodes[j]? = some m →
      g.representative registers avoid i = g.representative registers avoid j →
      (g.colorAvoiding registers avoid).1.colors[m.temp]? = none ∧
        m.temp ∈ (g.colorAvoiding registers avoid).1.spilled := by
  by_cases hcolor : ∃ c, (g.finalColors registers avoid).getD
      (g.representative registers avoid i) .unset = .color c
  · obtain ⟨c, hc⟩ := hcolor
    refine .inl ⟨c, fun hm hij => ?_⟩
    obtain ⟨hcolored, hspilled⟩ := outcome_of_node hnodes hg avoid hm
    rw [hij] at hc
    exact ⟨(hcolored c).mpr hc, fun hmem => hspilled.mp hmem c hc⟩
  · rw [not_exists] at hcolor
    refine .inr fun hm hij => ?_
    obtain ⟨hcolored, hspilled⟩ := outcome_of_node hnodes hg avoid hm
    rw [hij] at hcolor
    exact ⟨eq_none_iff_forall_ne_some.mpr fun c hc => hcolor c ((hcolored c).mp hc),
      hspilled.mpr hcolor⟩

end Temps

end Interference

/-! ## What holds of a class -/

/-- The class of a temp **holds together** in a graph that is coloured:

* if it has another member, the colour of the temp was not fixed from the start;
* no two of its members interfere;
* move edges between its members lead from the temp to each of them;
* its members have one colour, or they are all spilled. -/
structure Coloring.Cohesive (g : Interference) (coloring : Coloring) (a : Temp) : Prop where
  free : ∀ {b : Temp} {n : InterferenceNode}, coloring.Unified a b → a ≠ b →
    g.node? a = some n → n.precolored = false
  apart : ∀ {b c : Temp}, coloring.Unified a b → coloring.Unified a c → g.interferes b c = false
  connected : ∀ {b : Temp}, coloring.Unified a b → Relation.ReflTransGen
    (fun x y => g.moveRelated x y = true ∧ coloring.Unified x y) a b
  outcome : (∃ color, ∀ {b : Temp}, coloring.Unified a b →
      coloring.colors[b]? = some color ∧ b ∉ coloring.spilled) ∨
    ∀ {b : Temp}, coloring.Unified a b → coloring.colors[b]? = none ∧ b ∈ coloring.spilled

namespace Interference

/-- **Temps that were made one** are free of conflicts, copied among one another and
treated alike, whatever the order of the merges was. -/
theorem cohesive_colorAvoiding (code : List Instruction) (live : Liveness) (registers : Nat)
    (avoid : TempSet) {a : Temp} (ha : ((build code live registers).node? a).isSome) :
    Coloring.Cohesive (build code live registers)
      ((build code live registers).colorAvoiding registers avoid).1 a := by
  have hnodes := nodes_build code live registers
  have hg := wellFormed_build code live registers
  generalize build code live registers = g at ha hnodes hg
  obtain ⟨n, hnode⟩ := isSome_iff_exists.mp ha
  obtain ⟨i, hi, hn⟩ := bind_eq_some_iff.mp hnode
  obtain ⟨_, hn', rfl⟩ := exists_node_of_index? hi
  obtain rfl := some.inj (hn.symm.trans hn')
  obtain ⟨hr, ht, -⟩ := Reduction.exhaust_new hg registers avoid
  -- temps of one class are those of nodes with one representative
  have hclass := fun {b : Temp} => exists_node_of_unified hnodes hg avoid hn (b := b)
  constructor
  case free =>
    intro b m hb hne hm
    obtain rfl := some.inj (hnode.symm.trans hm)
    obtain ⟨j, m, hm, rfl, hij⟩ := hclass hb
    have hfree := ht.precolored_eq_false hr hij fun heq => hne (by
      subst heq
      exact congrArg _ (some.inj (hn.symm.trans hm)))
    rwa [precolored, hn] at hfree
  case apart =>
    intro b c hb hc
    obtain ⟨j, m, hm, rfl, hij⟩ := hclass hb
    obtain ⟨k, m', hm', rfl, hik⟩ := hclass hc
    unfold interferes
    rw [hnodes.index?_eq hm, hnodes.index?_eq hm', ← Bool.not_eq_true,
      Std.ExtTreeSet.contains_iff_mem]
    exact ht.notMem_adjacent hr (hij.symm.trans hik)
  case connected =>
    intro b hb
    obtain ⟨j, m, hm, rfl, hij⟩ := hclass hb
    rw [← tempOf_eq hn, ← tempOf_eq hm]
    exact connected_of_representative hnodes hg avoid hij
  case outcome =>
    obtain ⟨c, hc⟩ | hspilled := outcome_of_class hnodes hg avoid i
    · refine .inl ⟨c, fun {b} hb => ?_⟩
      obtain ⟨j, m, hm, rfl, hij⟩ := hclass hb
      exact hc hm hij
    · refine .inr fun {b} hb => ?_
      obtain ⟨j, m, hm, rfl, hij⟩ := hclass hb
      exact hspilled hm hij

/-- A parameter is copied twice, and the last copy is added to. -/
def copyChain : List Instruction := let x : Temp := ⟨7, .plain "x"⟩
  let step : Temp := ⟨8, .plain "step"⟩
  let y : Temp := ⟨9, .plain "y"⟩
  let z : Temp := ⟨10, .plain "z"⟩
  [.enter [x, step], .mov y x, .mov z y, .binary .add z step, .ret [z]]

/-- Two merges make one class of the parameter and its copies, and the second does not
speak of the first copy. -/
theorem cohesive_colorAvoiding_copyChain :
    ∃ live s, (Liveness.analyze copyChain).run.run {} = (.ok live, s) ∧
      let g := build copyChain live 2
      let coloring := (g.colorAvoiding 2 ∅).1
      coloring.merges = [(⟨7, .plain "x"⟩, ⟨9, .plain "y"⟩), (⟨7, .plain "x"⟩, ⟨10, .plain "z"⟩)] ∧
      (g.node? ⟨9, .plain "y"⟩).isSome ∧ Coloring.Cohesive g coloring ⟨9, .plain "y"⟩ :=
  ⟨_, _, rfl, by decide +kernel, by decide +kernel,
    cohesive_colorAvoiding copyChain _ 2 ∅ (by decide +kernel)⟩

end Interference

end TreeBackend
