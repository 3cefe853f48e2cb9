import TreeBackend.Alloc.Reduction
import TreeBackend.Proofs.InterferenceGraph

/-!
# How a graph comes apart

Every step of a reduction is one of four, and what each of them may do is said
once, by `Reduction.Phase`. Everything that holds throughout a reduction is
then checked against the four phases alone.

Coalescing is the one that makes this hard: two nodes become one, and an edge
of the graph as it was built no longer joins the nodes it was built between,
but the nodes that stand for them. `Removal.standsFor` says which node stands
for which, read off the stack; `Reduction.Tracks` says that every edge of the
built graph is still there between the nodes that stand for its ends.
-/

namespace TreeBackend

open List Option Std.ExtTreeSet

/-! ## What stands on the stack -/

namespace Removal

/-- The node that left the graph. -/
def node : Removal → Nat
  | simplified n => n
  | spill n => n
  | merged _ absorbed => absorbed

/-- The nodes a removal speaks of: those still in the graph when it happened. -/
def nodes : Removal → List Nat
  | simplified n => [n]
  | spill n => [n]
  | merged keep absorbed => [keep, absorbed]

/-- The node that takes the place of `n` when `absorbed` becomes one with
`keep`. -/
def unify (keep absorbed n : Nat) : Nat := if n = absorbed then keep else n

/-- The node that **stands for** `n` after the merges of a stack, the latest
merge on top. -/
def standsFor : List Removal → Nat → Nat
  | [], n => n
  | merged keep absorbed :: rest, n => unify keep absorbed (standsFor rest n)
  | simplified _ :: rest, n => standsFor rest n
  | spill _ :: rest, n => standsFor rest n

theorem node_mem_nodes (how : Removal) : how.node ∈ how.nodes := by cases how <;> simp [node, nodes]

end Removal

namespace Reduction

variable {r r' : Reduction}

/-! ## The four phases -/

/-- Give up the move edge between two nodes; they interfere from now on. -/
def freezeEdge (r : Reduction) (n m : Nat) : Reduction := { r with
    moves := (r.moves.modify n (·.erase m)).modify m (·.erase n)
    adjacent := connect r.adjacent n m }

/-- **The phases of a reduction**, each with what is known when it is reached:
a phase comes only when those before it have nothing to do. -/
inductive Phase (r : Reduction) : Reduction → Prop where
  /-- A node with few neighbours and no move edges leaves. -/
  | simplify {n : Nat} (hn : n ∈ r.active) (free : r.related n = ∅)
      (low : r.degree n < r.registers) : Phase r (r.remove n (.simplified n))
  /-- Two nodes related by a move become one. -/
  | coalesce {a b : Nat} (ha : a ∈ r.active) (hb : b ∈ r.related a) (may : r.mayMerge a b = true)
      (stuck : ∀ n ∈ r.active, r.related n = ∅ → r.registers ≤ r.degree n) :
      Phase r (r.merge (min a b) (max a b))
  /-- A move edge is given up. -/
  | freeze {n m : Nat} (hn : n ∈ r.active) (hm : m ∈ r.related n)
      (stuck : ∀ n ∈ r.active, r.related n = ∅ → r.registers ≤ r.degree n)
      (apart : ∀ a ∈ r.active, ∀ b ∈ r.related a, r.mayMerge a b = false) :
      Phase r (r.freezeEdge n m)
  /-- A node is given up. -/
  | spill {n : Nat} (hn : n ∈ r.active) (free : ∀ a ∈ r.active, r.related a = ∅)
      (stuck : ∀ a ∈ r.active, r.registers ≤ r.degree a) : Phase r (r.remove n (.spill n))

/-- Nothing can be simplified while all nodes have moves or a high degree. -/
theorem simplify?_eq_none_iff :
    r.simplify? = none ↔ ∀ n ∈ r.active, r.related n = ∅ → r.registers ≤ r.degree n := by
  unfold simplify?
  rw [map_eq_none_iff, List.find?_eq_none]
  simp

/-- Nothing can be coalesced if no move may be merged. -/
theorem coalesce?_eq_none_iff :
    r.coalesce? = none ↔ ∀ a ∈ r.active, ∀ b ∈ r.related a, r.mayMerge a b = false := by
  unfold coalesce?
  rw [map_eq_none_iff, List.findSome?_eq_none_iff]
  simp

/-- Freezing picks a move edge of a node still to be removed, as long as there
is one. -/
theorem freeze?_cases : (r.freeze? = none ∧ ∀ a ∈ r.active, r.related a = ∅)
    ∨ ∃ n ∈ r.active, ∃ m ∈ r.related n, r.freeze? = some (r.freezeEdge n m) := by
  unfold freeze?
  dsimp only
  generalize hl : (r.active.filter fun n => !(r.related n).isEmpty) = candidates
  have hmem : ∀ n, n ∈ candidates ↔ n ∈ r.active ∧ r.related n ≠ ∅ := by
    intro n
    rw [← hl, mem_filter]
    simp
  generalize hc : (candidates.find? (fun n => (r.related n).size = 1)
    <|> candidates.minOn? fun n => (r.related n).size) = candidate
  rw [orElse_apply, orElse_eq_or] at hc
  cases candidate with
  | none =>
    refine .inl ⟨rfl, fun a ha => ?_⟩
    by_contra hne
    have hsome := List.isSome_minOn?_of_mem (f := fun n => (r.related n).size)
      ((hmem a).mpr ⟨ha, hne⟩)
    rw [(or_eq_none_iff.mp hc).2] at hsome
    cases hsome
  | some n =>
    have hn : n ∈ candidates := by
      obtain hfind | ⟨_, hmin⟩ := or_eq_some_iff.mp hc
      · exact mem_of_find?_eq_some hfind
      · exact List.minOn?_mem hmin
    obtain ⟨hn, hne⟩ := (hmem n).mp hn
    obtain ⟨m, hm⟩ := isSome_iff_exists.mp (isSome_min?_iff_ne_empty.mpr hne)
    refine .inr ⟨n, hn, m, Std.ExtTreeSet.min?_mem hm, ?_⟩
    show ((r.related n).toList.head?.map _) = _
    rw [Std.ExtTreeSet.head?_toList, hm]
    rfl

/-- **Every step is one of the phases.** -/
theorem phase_of_step? (h : r.step? = some r') : Phase r r' := by
  unfold step? at h
  cases hs : r.simplify? with
  | some r₁ =>
    rw [hs] at h
    cases h
    obtain ⟨n, hn, rfl⟩ := map_eq_some_iff.mp hs
    have hp := List.find?_some hn
    simp only [Bool.and_eq_true, decide_eq_true_eq, Std.ExtTreeSet.isEmpty_iff] at hp
    exact .simplify (mem_of_find?_eq_some hn) hp.1 hp.2
  | none =>
    have hstuck := simplify?_eq_none_iff.mp hs
    cases hc : r.coalesce? with
    | some r₁ =>
      rw [hs, hc] at h
      cases h
      obtain ⟨pair, hpair, rfl⟩ := map_eq_some_iff.mp hc
      obtain ⟨a, ha, hfound⟩ := exists_of_findSome?_eq_some hpair
      obtain ⟨b, hb, rfl⟩ := map_eq_some_iff.mp hfound
      exact .coalesce ha (mem_toList.mp (mem_of_find?_eq_some hb)) (List.find?_some hb) hstuck
    | none =>
      have hapart := coalesce?_eq_none_iff.mp hc
      obtain ⟨hf, hfree⟩ | ⟨n, hn, m, hm, hf⟩ := r.freeze?_cases
      · rw [hs, hc, hf] at h
        obtain ⟨n, hn, rfl⟩ := map_eq_some_iff.mp h
        refine .spill ?_ hfree fun a ha => hstuck a ha (hfree a ha)
        have hmem := List.maxOn?_mem hn
        split at hmem
        · exact hmem
        · exact (mem_filter.mp hmem).1
      · rw [hs, hc, hf] at h
        cases h
        exact .freeze hn hm hstuck hapart

/-! ## What the phases do to edges -/

variable {n m : Nat}

theorem getD_mapIdx (edges : Array IndexSet) (f : Nat → IndexSet → IndexSet)
    (h : n < edges.size ∨ f n ∅ = ∅) : (edges.mapIdx f).getD n ∅ = f n (edges.getD n ∅) := by
  rw [Array.getD_eq_getD_getElem?, Array.getD_eq_getD_getElem?, Array.getElem?_mapIdx]
  by_cases hn : n < edges.size
  · rw [Array.getElem?_eq_getElem hn]
    rfl
  · rw [Array.getElem?_eq_none (Nat.le_of_not_lt hn)]
    exact (h.resolve_left hn).symm

theorem getD_modify (edges : Array IndexSet) (f : IndexSet → IndexSet) {i : Nat}
    (hi : i < edges.size) (n : Nat) :
    (edges.modify i f).getD n ∅ = if n = i then f (edges.getD n ∅) else edges.getD n ∅ := by
  rw [Array.getD_eq_getD_getElem?, Array.getD_eq_getD_getElem?, Array.getElem?_modify]
  by_cases h : i = n
  · subst h
    rw [if_pos rfl, if_pos rfl, Array.getElem?_eq_getElem hi]
    rfl
  · rw [if_neg h, if_neg (Ne.symm h)]

/-- Merging two nodes **identifies** them: there is an edge afterwards exactly
where there was one before between nodes that become its ends. -/
theorem mem_redirect (edges : Array IndexSet) {keep absorbed : Nat} (hne : keep ≠ absorbed)
    (hkeep : keep < edges.size) (hirrefl : ∀ {n}, n ∉ edges.getD n ∅) (n m : Nat) :
    m ∈ (redirect edges keep absorbed).getD n ∅ ↔
      n ≠ m ∧ ∃ x y, Removal.unify keep absorbed x = n ∧ Removal.unify keep absorbed y = m
        ∧ y ∈ edges.getD x ∅ := by
  unfold redirect
  rw [getD_mapIdx]
  · obtain ⟨E, hE⟩ : ∃ E : Nat → IndexSet, ∀ n, edges.getD n ∅ = E n := ⟨_, fun _ => rfl⟩
    simp only [hE] at hirrefl ⊢
    unfold Removal.unify
    constructor
    · intro h
      by_cases ha : n = absorbed
      · simp [ha] at h
      by_cases hk : n = keep
      · rw [if_pos hk] at h
        have hm : m ≠ keep ∧ m ≠ absorbed ∧ (m ∈ E keep ∨ m ∈ E absorbed) := by
          grind [Std.LawfulEqOrd.compare_eq_iff_eq, Std.ExtTreeSet.mem_union_iff]
        obtain ⟨hmk, hma, hm | hm⟩ := hm
        · exact ⟨by omega, keep, m, by simp [hk, hne], by simp [hma], hm⟩
        · exact ⟨by omega, absorbed, m, by simp [hk], by simp [hma], hm⟩
      · rw [if_neg hk] at h
        have hm : m = keep ∧ absorbed ∈ E n ∨ m ≠ absorbed ∧ m ∈ E n := by
          grind [Std.LawfulEqOrd.compare_eq_iff_eq, Std.ExtTreeSet.mem_union_iff]
        obtain ⟨rfl, hm⟩ | ⟨hma, hm⟩ := hm
        · exact ⟨hk, n, absorbed, by simp [ha], by simp, hm⟩
        · exact ⟨fun h => hirrefl (h ▸ hm), n, m, by simp [ha], by simp [hma], hm⟩
    · rintro ⟨hnm, x, y, hx, hy, hmem⟩
      grind [Std.LawfulEqOrd.compare_eq_iff_eq, Std.ExtTreeSet.mem_union_iff]
  · by_cases hn : n < edges.size
    · exact .inl hn
    · refine .inr ?_
      rw [if_neg (by omega : n ≠ keep)]
      simp

/-- Disconnecting a node from others takes out the edges between them. -/
theorem mem_disconnect (edges : Array IndexSet) (n : Nat) (others : IndexSet) (x y : Nat) :
    y ∈ (disconnect edges n others).getD x ∅ ↔
      y ∈ edges.getD x ∅ ∧ ¬ (x = n ∧ y ∈ others) ∧ ¬ (x ≠ n ∧ x ∈ others ∧ y = n) := by
  unfold disconnect
  rw [getD_mapIdx]
  · grind [Std.LawfulEqOrd.compare_eq_iff_eq, mem_diff_iff]
  · exact .inr (ext_mem fun z => by grind [mem_diff_iff])

/-! ## Coherence -/

@[simp] theorem mem_active :
    n ∈ r.active ↔ n < r.adjacent.size ∧ r.isRemoved n = false ∧ r.isPrecolored n = false := by
  simp [active]

/-- One more node is removed. -/
theorem isRemoved_remove (hn : n < r.removed.size) (how : Removal) (m : Nat) :
    (r.remove n how).isRemoved m = (decide (m = n) || r.isRemoved m) := by
  unfold isRemoved remove
  rw [Array.getD_eq_getD_getElem?, Array.getD_eq_getD_getElem?, Array.getElem?_setIfInBounds]
  by_cases h : n = m
  · subst h
    simp [hn]
  · simp [h, Ne.symm h]

/-- A **coherent** reduction. Edges run both ways between different nodes, and
never to a node that was made one with another. Move edges join nodes that are
still to be removed and do not interfere. The stack tells which nodes were
removed, and nothing is removed once a later removal no longer speaks of it. -/
structure Coherent (r : Reduction) : Prop where
  size_moves : r.moves.size = r.adjacent.size
  size_removed : r.removed.size = r.adjacent.size
  neighbours_symm : ∀ {n m : Nat}, m ∈ r.neighbours n → n ∈ r.neighbours m
  neighbours_ne : ∀ {n m : Nat}, m ∈ r.neighbours n → n ≠ m
  neighbours_lt : ∀ {n m : Nat}, m ∈ r.neighbours n → m < r.adjacent.size
  neighbours_whole : ∀ {n m : Nat}, m ∈ r.neighbours n → ∀ keep, .merged keep m ∉ r.stack
  related_symm : ∀ {n m : Nat}, m ∈ r.related n → n ∈ r.related m
  related_ne : ∀ {n m : Nat}, m ∈ r.related n → n ≠ m
  related_active : ∀ {n m : Nat}, m ∈ r.related n → m ∈ r.active
  related_apart : ∀ {n m : Nat}, m ∈ r.related n → m ∉ r.neighbours n
  removed_iff : ∀ {n : Nat}, r.isRemoved n = true ↔ ∃ how ∈ r.stack, how.node = n
  stack_nodes : ∀ {how : Removal}, how ∈ r.stack → how.nodes.Nodup
    ∧ ∀ n ∈ how.nodes, n < r.adjacent.size ∧ r.isPrecolored n = false
  stack_order : r.stack.Pairwise fun later earlier => earlier.node ∉ later.nodes

/-- A node still to be removed is not on the stack. -/
theorem Coherent.notMem_stack (h : r.Coherent) (hn : n ∈ r.active) {how : Removal}
    (hhow : how ∈ r.stack) : how.node ≠ n := by
  intro heq
  have hrem := h.removed_iff.mpr ⟨how, hhow, heq⟩
  rw [(mem_active.mp hn).2.1] at hrem
  cases hrem

/-- A node without move edges may be removed, and a node without any edges may
be made one with another. -/
theorem Coherent.remove (h : r.Coherent) (how : Removal) (hnodup : how.nodes.Nodup)
    (hactive : ∀ n ∈ how.nodes, n ∈ r.active) (hfree : r.related how.node = ∅)
    (hwhole : ∀ keep, how = .merged keep how.node → r.neighbours how.node = ∅) :
    (r.remove how.node how).Coherent := by
  have hnode := hactive how.node how.node_mem_nodes
  have hremoved := isRemoved_remove (by rw [h.size_removed]; exact (mem_active.mp hnode).1) how
  constructor
  case size_moves => exact h.size_moves
  case size_removed => exact Array.size_setIfInBounds.trans h.size_removed
  case neighbours_symm => exact h.neighbours_symm
  case neighbours_ne => exact h.neighbours_ne
  case neighbours_lt => exact h.neighbours_lt
  case neighbours_whole =>
    -- nobody is next to a node that is merged away now: it has no edges left
    intro n m hm keep hmem
    obtain rfl | hmem := mem_cons.mp hmem
    · have hno : r.neighbours m = ∅ := hwhole keep rfl
      have hn := h.neighbours_symm hm
      rw [hno] at hn
      exact not_mem_empty hn
    · exact h.neighbours_whole hm keep hmem
  case related_symm => exact h.related_symm
  case related_ne => exact h.related_ne
  case related_active =>
    -- nor does a move edge lead to the node removed
    intro n m hm
    obtain ⟨hlt, hrem, hpre⟩ := mem_active.mp (h.related_active hm)
    refine mem_active.mpr ⟨hlt, ?_, hpre⟩
    rw [hremoved, hrem, Bool.or_false, decide_eq_false_iff_not]
    rintro rfl
    have hn := h.related_symm hm
    rw [hfree] at hn
    exact not_mem_empty hn
  case related_apart => exact h.related_apart
  case removed_iff =>
    intro n
    rw [hremoved, Bool.or_eq_true, decide_eq_true_eq, h.removed_iff]
    show _ ↔ ∃ how' ∈ how :: r.stack, how'.node = n
    rw [exists_mem_cons_iff, eq_comm]
  case stack_nodes =>
    intro how' hmem
    obtain rfl | hmem := mem_cons.mp hmem
    · refine ⟨hnodup, fun n hn => ?_⟩
      obtain ⟨hlt, -, hpre⟩ := mem_active.mp (hactive n hn)
      exact ⟨hlt, hpre⟩
    · exact h.stack_nodes hmem
  case stack_order =>
    exact pairwise_cons.mpr
      ⟨fun earlier hearlier hin => h.notMem_stack (hactive _ hin) hearlier rfl, h.stack_order⟩

/-- Rewiring leaves a reduction coherent when the new edges run both ways
between different nodes that are there, and the new move edges between nodes
still to be removed. -/
theorem Coherent.rewire (h : r.Coherent) (adjacent moves : Array IndexSet)
    (hadj : adjacent.size = r.adjacent.size) (hmov : moves.size = r.adjacent.size)
    (hsymm : ∀ {n m}, m ∈ adjacent.getD n ∅ → n ∈ adjacent.getD m ∅)
    (hnew : ∀ {n m}, m ∈ adjacent.getD n ∅ → n ≠ m ∧ (m ∈ r.active ∨ ∃ x, m ∈ r.neighbours x))
    (hmsymm : ∀ {n m}, m ∈ moves.getD n ∅ → n ∈ moves.getD m ∅)
    (hmnew : ∀ {n m}, m ∈ moves.getD n ∅ → n ≠ m ∧ m ∈ r.active ∧ m ∉ adjacent.getD n ∅) :
    ({ r with adjacent, moves } : Reduction).Coherent := by
  constructor
  case size_moves => exact hmov.trans hadj.symm
  case size_removed => exact h.size_removed.trans hadj.symm
  case neighbours_symm => exact hsymm
  case neighbours_ne => exact fun hm => (hnew hm).1
  case neighbours_lt =>
    intro n m hm
    rw [hadj]
    obtain hact | ⟨x, hx⟩ := (hnew hm).2
    · exact (mem_active.mp hact).1
    · exact h.neighbours_lt hx
  case neighbours_whole =>
    intro n m hm keep hmem
    obtain hact | ⟨x, hx⟩ := (hnew hm).2
    · exact h.notMem_stack hact hmem rfl
    · exact h.neighbours_whole hx keep hmem
  case related_symm => exact hmsymm
  case related_ne => exact fun hm => (hmnew hm).1
  case related_active =>
    intro n m hm
    have hact := mem_active.mp (hmnew hm).2.1
    exact mem_active.mpr ⟨hact.1.trans_eq hadj.symm, hact.2⟩
  case related_apart => exact fun hm => (hmnew hm).2.2
  case removed_iff => exact h.removed_iff
  case stack_nodes =>
    intro how hmem
    refine ⟨(h.stack_nodes hmem).1, fun n hn => ?_⟩
    have hin := (h.stack_nodes hmem).2 n hn
    exact ⟨hin.1.trans_eq hadj.symm, hin.2⟩
  case stack_order => exact h.stack_order

section Merge

variable {keep absorbed : Nat}

/-- A node that was absorbed is not named any more. -/
theorem unify_ne_absorbed (hne : keep ≠ absorbed) (x : Nat) :
    Removal.unify keep absorbed x ≠ absorbed := by
  unfold Removal.unify
  split
  · exact hne
  · assumption

theorem unify_cases (keep absorbed x : Nat) :
    Removal.unify keep absorbed x = keep ∨ Removal.unify keep absorbed x = x := by
  unfold Removal.unify
  split
  · exact .inl rfl
  · exact .inr rfl

theorem eq_of_unify {x n : Nat} (h : Removal.unify keep absorbed x = n) (hn : n ≠ keep) : x = n :=
  ((unify_cases keep absorbed x).resolve_left fun hk => hn (h.symm.trans hk)).symm.trans h

/-- The edges after a merge are the edges before it, between the nodes that
take the places of their ends. -/
theorem Coherent.mem_neighbours_merge (h : r.Coherent) (hkeep : keep ∈ r.active)
    (hne : keep ≠ absorbed) (n m : Nat) :
    m ∈ (r.merge keep absorbed).neighbours n ↔
      n ≠ m ∧ ∃ x y, Removal.unify keep absorbed x = n ∧ Removal.unify keep absorbed y = m
        ∧ y ∈ r.neighbours x :=
  mem_redirect r.adjacent hne (mem_active.mp hkeep).1 (fun hn => h.neighbours_ne hn rfl) n m

/-- After a merge neighbours are still neighbours of each other. -/
theorem Coherent.neighbours_merge_symm (h : r.Coherent) (hkeep : keep ∈ r.active)
    (hne : keep ≠ absorbed) {n m : Nat} (hm : m ∈ (r.merge keep absorbed).neighbours n) :
    n ∈ (r.merge keep absorbed).neighbours m := by
  rw [h.mem_neighbours_merge hkeep hne] at hm ⊢
  obtain ⟨hnm, x, y, hx, hy, hxy⟩ := hm
  exact ⟨hnm.symm, y, x, hy, hx, h.neighbours_symm hxy⟩

/-- So are the move edges, but for those between nodes that interfere from now
on. -/
theorem Coherent.mem_related_merge (h : r.Coherent) (hkeep : keep ∈ r.active)
    (hne : keep ≠ absorbed) (n m : Nat) :
    m ∈ (r.merge keep absorbed).related n ↔
      (n ≠ m ∧ ∃ x y, Removal.unify keep absorbed x = n ∧ Removal.unify keep absorbed y = m
        ∧ y ∈ r.related x) ∧ m ∉ (r.merge keep absorbed).neighbours n := by
  have hmov := mem_redirect r.moves hne
    ((mem_active.mp hkeep).1.trans_eq h.size_moves.symm) (fun hn => h.related_ne hn rfl) n m
  refine (mem_disconnect _ _ _ n m).trans ?_
  rw [hmov]
  refine and_congr_right fun ⟨hnm, x, y, hx, hy, hxy⟩ => ⟨fun ⟨hout, hin⟩ hm => ?_, fun hm => ?_⟩
  · -- at `keep` the edge was taken out; elsewhere neither edge has moved
    have hnk : n ≠ keep := fun hn => hout ⟨hn, hn ▸ hm⟩
    have hmk : m ≠ keep := fun hmk => hin ⟨hnk, h.neighbours_merge_symm hkeep hne (hmk ▸ hm), hmk⟩
    obtain ⟨-, x', y', hx', hy', hxy'⟩ := (h.mem_neighbours_merge hkeep hne n m).mp hm
    rw [eq_of_unify hx hnk, eq_of_unify hy hmk] at hxy
    rw [eq_of_unify hx' hnk, eq_of_unify hy' hmk] at hxy'
    exact h.related_apart hxy hxy'
  · exact ⟨fun ⟨hn, hk⟩ => hm (hn ▸ hk),
      fun ⟨_, hn, hmk⟩ => hm (hmk ▸ h.neighbours_merge_symm hkeep hne hn)⟩

/-- Merging two nodes that are still to be removed. -/
theorem Coherent.merge (h : r.Coherent) (hkeep : keep ∈ r.active)
    (habsorbed : absorbed ∈ r.active) (hne : keep ≠ absorbed) :
    (r.merge keep absorbed).Coherent := by
  have hadj := h.mem_neighbours_merge hkeep hne
  have hmov := h.mem_related_merge hkeep hne
  -- a merge is a rewiring, after which the node absorbed has no edges, and its removal
  have hr := h.rewire (r.merge keep absorbed).adjacent (r.merge keep absorbed).moves
    (by simp [Reduction.merge, Reduction.remove, redirect])
    (by simp [Reduction.merge, Reduction.remove, redirect, disconnect, h.size_moves])
    (h.neighbours_merge_symm hkeep hne) ?_ ?_ ?_
  · refine hr.remove (.merged keep absorbed) (by simpa [Removal.nodes] using hne) ?_ ?_ ?_
    · intro n hn
      have hact : n ∈ r.active := by
        obtain rfl | rfl := mem_pair.mp hn
        · exact hkeep
        · exact habsorbed
      rw [mem_active] at hact ⊢
      exact ⟨hact.1.trans_eq (by simp [Reduction.merge, Reduction.remove, redirect]), hact.2⟩
    · refine eq_empty_iff_forall_not_mem.mpr fun m hm => ?_
      obtain ⟨⟨-, x, -, hx, -⟩, -⟩ := (hmov absorbed m).mp hm
      exact unify_ne_absorbed hne x hx
    · refine fun _ _ => eq_empty_iff_forall_not_mem.mpr fun m hm => ?_
      obtain ⟨-, x, -, hx, -⟩ := (hadj absorbed m).mp hm
      exact unify_ne_absorbed hne x hx
  · intro n m hm
    obtain ⟨hnm, x, y, -, hy, hxy⟩ := (hadj n m).mp hm
    refine ⟨hnm, ?_⟩
    obtain hk | hk := unify_cases keep absorbed y
    · exact .inl ((hy.symm.trans hk) ▸ hkeep)
    · exact .inr ⟨x, hy ▸ hk.symm ▸ hxy⟩
  · intro n m hm
    obtain ⟨⟨hnm, x, y, hx, hy, hxy⟩, hno⟩ := (hmov n m).mp hm
    exact (hmov m n).mpr ⟨⟨hnm.symm, y, x, hy, hx, h.related_symm hxy⟩,
      fun hn => hno (h.neighbours_merge_symm hkeep hne hn)⟩
  · intro n m hm
    obtain ⟨⟨hnm, x, y, hx, hy, hxy⟩, hno⟩ := (hmov n m).mp hm
    refine ⟨hnm, ?_, hno⟩
    obtain hk | hk := unify_cases keep absorbed y
    · exact (hy.symm.trans hk) ▸ hkeep
    · exact hy ▸ hk.symm ▸ h.related_active hxy

end Merge

/-- Freezing turns a move edge into an edge: one edge more … -/
theorem Coherent.mem_neighbours_freezeEdge (h : r.Coherent) (hn : n ∈ r.active)
    (hm : m ∈ r.related n) (x y : Nat) :
    y ∈ (r.freezeEdge n m).neighbours x ↔ y ∈ r.neighbours x ∨ x = n ∧ y = m ∨ x = m ∧ y = n := by
  have hnlt := (mem_active.mp hn).1
  have hmlt := (mem_active.mp (h.related_active hm)).1
  unfold Reduction.freezeEdge neighbours connect
  rw [getD_modify _ _ (by simpa using hmlt), getD_modify _ _ hnlt]
  grind [Std.LawfulEqOrd.compare_eq_iff_eq]

/-- … and one move edge fewer. -/
theorem Coherent.mem_related_freezeEdge (h : r.Coherent) (hn : n ∈ r.active) (hm : m ∈ r.related n)
    (x y : Nat) :
    y ∈ (r.freezeEdge n m).related x ↔ y ∈ r.related x ∧ ¬ (x = n ∧ y = m ∨ x = m ∧ y = n) := by
  have hnlt := (mem_active.mp hn).1
  have hmlt := (mem_active.mp (h.related_active hm)).1
  unfold Reduction.freezeEdge related
  rw [getD_modify _ _ (by simpa [h.size_moves] using hmlt),
    getD_modify _ _ (by simpa [h.size_moves] using hnlt)]
  grind [Std.LawfulEqOrd.compare_eq_iff_eq]

/-- **Giving a move up keeps the graph coherent.** -/
theorem Coherent.freezeEdge (h : r.Coherent) (hn : n ∈ r.active) (hm : m ∈ r.related n) :
    (r.freezeEdge n m).Coherent := by
  have hmact := h.related_active hm
  have hnm := h.related_ne hm
  have hadj := h.mem_neighbours_freezeEdge hn hm
  have hmov := h.mem_related_freezeEdge hn hm
  refine h.rewire _ _ (by simp [connect]) (by simp [h.size_moves]) ?_ ?_ ?_ ?_
  · intro x y hy
    refine (hadj y x).mpr ?_
    obtain hy | hy | hy := (hadj x y).mp hy
    · exact .inl (h.neighbours_symm hy)
    · exact .inr (.inr hy.symm)
    · exact .inr (.inl hy.symm)
  · intro x y hy
    obtain hy | ⟨rfl, rfl⟩ | ⟨rfl, rfl⟩ := (hadj x y).mp hy
    · exact ⟨h.neighbours_ne hy, .inr ⟨x, hy⟩⟩
    · exact ⟨hnm, .inl hmact⟩
    · exact ⟨hnm.symm, .inl hn⟩
  · intro x y hy
    obtain ⟨hy, hno⟩ := (hmov x y).mp hy
    exact (hmov y x).mpr ⟨h.related_symm hy, fun hx => hno (hx.symm.imp And.symm And.symm)⟩
  · intro x y hy
    obtain ⟨hy, hno⟩ := (hmov x y).mp hy
    exact ⟨h.related_ne hy, h.related_active hy,
      fun hin => ((hadj x y).mp hin).elim (h.related_apart hy) hno⟩

/-- Both ends of a move edge are still to be removed, whichever of them stays. -/
theorem Coherent.ends_active (h : r.Coherent) {a b : Nat} (ha : a ∈ r.active)
    (hb : b ∈ r.related a) :
    min a b ∈ r.active ∧ max a b ∈ r.active ∧ min a b ≠ max a b := by
  have hbact := h.related_active hb
  have hab := h.related_ne hb
  obtain hle | hle := Nat.le_total a b
  · rw [Nat.min_eq_left hle, Nat.max_eq_right hle]
    exact ⟨ha, hbact, hab⟩
  · rw [Nat.min_eq_right hle, Nat.max_eq_left hle]
    exact ⟨hbact, ha, hab.symm⟩

/-- **Every phase keeps a reduction coherent.** -/
theorem Coherent.phase (h : r.Coherent) (hp : Phase r r') : r'.Coherent := by
  cases hp with
  | @simplify n hn free _ =>
    exact h.remove (.simplified n) (nodup_singleton n)
      (fun m hm => mem_singleton.mp hm ▸ hn) free (fun _ heq => by cases heq)
  | @coalesce a b ha hb _ _ =>
    obtain ⟨hkeep, habsorbed, hne⟩ := h.ends_active ha hb
    exact h.merge hkeep habsorbed hne
  | freeze hn hm _ _ => exact h.freezeEdge hn hm
  | @spill n hn free _ =>
    exact h.remove (.spill n) (nodup_singleton n)
      (fun m hm => mem_singleton.mp hm ▸ hn) (free n hn) (fun _ heq => by cases heq)

/-! ## The graph that is taken apart -/

/-- The reduction **tracks** a graph: it has the graph's nodes, and every edge
of the graph lives on between the nodes that stand for its ends. -/
structure Tracks (g : Interference) (r : Reduction) : Prop where
  size_eq : r.adjacent.size = g.nodes.size
  precolored_eq : ∀ n, r.isPrecolored n = g.precolored n
  mem_neighbours : ∀ {n m : Nat}, m ∈ g.adjacent n →
    Removal.standsFor r.stack m ∈ r.neighbours (Removal.standsFor r.stack n)

variable {g : Interference}

/-- **Every phase keeps track of the graph.** -/
theorem Tracks.phase (h : Tracks g r) (hr : r.Coherent) (hp : Phase r r') : Tracks g r' := by
  cases hp with
  | simplify | spill => exact ⟨h.size_eq, h.precolored_eq, h.mem_neighbours⟩
  | freeze hn hm _ _ =>
    exact ⟨by simpa [freezeEdge, connect] using h.size_eq, h.precolored_eq,
      fun he => (hr.mem_neighbours_freezeEdge hn hm _ _).mpr (.inl (h.mem_neighbours he))⟩
  | @coalesce a b ha hb may _ =>
    obtain ⟨hkeep, -, hkeepne⟩ := hr.ends_active ha hb
    refine ⟨by simpa [merge, remove, redirect] using h.size_eq, h.precolored_eq, fun he => ?_⟩
    have hm := h.mem_neighbours he
    refine (hr.mem_neighbours_merge hkeep hkeepne _ _).mpr ⟨?_, _, _, rfl, rfl, hm⟩
    -- the merged nodes do not interfere, so no edge runs between them
    have hne := hr.neighbours_ne hm
    have hapart := hr.related_apart hb
    have hapart' : a ∉ r.neighbours b := fun hin => hapart (hr.neighbours_symm hin)
    show Removal.unify _ _ _ ≠ Removal.unify _ _ _
    unfold Removal.unify
    grind

/-! ## Whole reductions -/

section New

variable (g : Interference) (registers : Nat) (avoid : TempSet) (n : Nat)

theorem neighbours_new : (new g registers avoid).neighbours n = g.adjacent n := by
  unfold neighbours new Interference.adjacent
  rw [Array.getD_eq_getD_getElem?, Array.getElem?_map]
  cases g.nodes[n]? <;> rfl

theorem related_new : (new g registers avoid).related n = g.moves n := by
  unfold related new Interference.moves
  rw [Array.getD_eq_getD_getElem?, Array.getElem?_map]
  cases g.nodes[n]? <;> rfl

theorem isPrecolored_new : (new g registers avoid).isPrecolored n = g.precolored n := by
  unfold isPrecolored new Interference.precolored
  rw [Array.getD_eq_getD_getElem?, Array.getElem?_map]
  cases g.nodes[n]? <;> rfl

theorem isRemoved_new : (new g registers avoid).isRemoved n = false := by
  unfold isRemoved new
  rw [Array.getD_eq_getD_getElem?, Array.getElem?_replicate]
  split <;> rfl

theorem size_adjacent_new : (new g registers avoid).adjacent.size = g.nodes.size := Array.size_map

end New

/-- A well-formed graph is where a coherent reduction starts. -/
theorem coherent_new (hg : g.WellFormed) (registers : Nat) (avoid : TempSet) :
    (new g registers avoid).Coherent := by
  have hadj := neighbours_new g registers avoid
  have hmov := related_new g registers avoid
  have hsize := size_adjacent_new g registers avoid
  constructor
  case size_moves => exact Array.size_map.trans hsize.symm
  case size_removed => exact Array.size_replicate.trans hsize.symm
  case neighbours_symm => simpa only [hadj] using @hg.adjacent_symm
  case neighbours_ne => simpa only [hadj] using @hg.adjacent_ne
  case neighbours_lt => simpa only [hadj, hsize] using @hg.adjacent_lt
  case neighbours_whole => exact fun _ _ hmem => not_mem_nil hmem
  case related_symm => simpa only [hmov] using @hg.moves_symm
  case related_ne => simpa only [hmov] using @hg.moves_ne
  case related_active =>
    intro n m hm
    rw [hmov] at hm
    rw [mem_active, hsize, isRemoved_new, isPrecolored_new]
    exact ⟨hg.moves_lt hm, rfl, hg.moves_precolored hm⟩
  case related_apart => simpa only [hmov, hadj] using @hg.moves_apart
  case removed_iff =>
    intro n
    rw [isRemoved_new]
    exact ⟨fun h => (by cases h), fun ⟨_, hmem, _⟩ => absurd hmem not_mem_nil⟩
  case stack_nodes => exact fun hmem => absurd hmem not_mem_nil
  case stack_order => exact List.Pairwise.nil

/-- A new reduction knows the graph as it is. -/
theorem tracks_new (g : Interference) (registers : Nat) (avoid : TempSet) :
    Tracks g (new g registers avoid) where
  size_eq := size_adjacent_new g registers avoid
  precolored_eq := isPrecolored_new g registers avoid
  mem_neighbours hm := by
    rw [neighbours_new]
    exact hm

/-- No phase changes the number of registers. -/
theorem Phase.registers_eq (hp : Phase r r') : r'.registers = r.registers := by cases hp <;> rfl

/-- What every phase keeps holds at the end of a reduction. -/
theorem run_induction {P : Reduction → Prop} (hstep : ∀ {r r'}, Phase r r' → P r → P r')
    (fuel : Nat) (h : P r) : P (r.run fuel) := by
  induction fuel generalizing r with
  | zero => exact h
  | succ fuel ih =>
    unfold run
    split
    · next r' hr => exact ih (hstep (phase_of_step? hr) h)
    · exact h

/-- **A graph that was taken apart**: the reduction is coherent, tracks the
graph, and knows how many colours there are. -/
theorem exhaust_new (hg : g.WellFormed) (registers : Nat) (avoid : TempSet) :
    (new g registers avoid).exhaust.Coherent ∧ Tracks g (new g registers avoid).exhaust
      ∧ (new g registers avoid).exhaust.registers = registers :=
  run_induction (P := fun r => r.Coherent ∧ Tracks g r ∧ r.registers = registers)
    (fun hp ⟨hr, ht, hk⟩ => ⟨hr.phase hp, ht.phase hr hp, hp.registers_eq.trans hk⟩) _
    ⟨coherent_new hg registers avoid, tracks_new g registers avoid, rfl⟩

end Reduction

end TreeBackend
