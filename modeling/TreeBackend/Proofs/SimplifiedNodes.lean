import TreeBackend.Proofs.CoalescedClasses

/-!
# Simplified nodes find a colour

A node is simplified when it has fewer neighbours in the graph than there are
registers. When it comes back, those of its neighbours that have a colour are the
ones that were still in the graph at that moment, or what became of them: merges
may have made several of them one, and never make one of them two. So the set of
coloured neighbours is still too small to use up the registers.

`Reduction.HasRoom` says this of one node, by a set that is too small and holds the
neighbours that will have a colour; every phase keeps it for all nodes simplified so
far (`Reduction.Roomy.phase`). A node without a colour is therefore a node that was
given up, or was made one with such a node.
-/

namespace TreeBackend

open List

variable {i : Nat}

/-- A set of nodes lists each of them once. -/
theorem IndexSet.nodup_toList (nodes : IndexSet) : nodes.toList.Nodup :=
  Std.ExtTreeSet.distinct_toList.imp fun hne heq => hne (Std.LawfulEqCmp.compare_eq_iff_eq.mpr heq)

namespace Reduction

variable {r r' : Reduction}

/-! ## Nodes still in the graph -/

/-- The nodes of a set that are still in the graph. -/
def remainder (r : Reduction) (nodes : IndexSet) : Finset Nat :=
  (nodes.toList.filter fun m => !r.isRemoved m).toFinset

theorem mem_remainder {nodes : IndexSet} {m : Nat} :
    m ∈ r.remainder nodes ↔ m ∈ nodes ∧ r.isRemoved m = false := by
  simp [remainder]

theorem card_remainder (r : Reduction) (nodes : IndexSet) :
    (r.remainder nodes).card = r.remaining nodes := by
  rw [remainder, remaining, toFinset_card_of_nodup ((IndexSet.nodup_toList nodes).filter _),
    countP_eq_length_filter]

/-! ## Room for a colour -/

/-- There is **room** for a node that comes back before the removals of `waiting`: fewer
of its neighbours than there are registers are back by then. -/
def HasRoom (r : Reduction) (waiting : List Removal) (n : Nat) : Prop :=
  ∃ few : Finset Nat, few.card < r.registers ∧
    ∀ m ∈ r.neighbours n, Coloring.Settled waiting m → m ∈ few

/-- There is room for every node that was simplified. -/
def Roomy (r : Reduction) : Prop :=
  ∀ ⦃n : Nat⦄ ⦃waiting : List Removal⦄, .simplified n :: waiting <:+ r.stack → r.HasRoom waiting n

variable {waiting : List Removal} {n : Nat}

/-- A node that is not on the stack does not wait on any part of it. -/
theorem Coherent.settled (h : r.Coherent) (hwaiting : waiting <:+ r.stack) (hn : n ∈ r.active) :
    Coloring.Settled waiting n :=
  fun _ hhow => h.notMem_stack hn (hwaiting.mem hhow)

/-- A merge of nodes still in the graph takes no room: of the neighbours that were to be
back, two may have become one. -/
theorem HasRoom.merge (hr : r.Coherent) {keep absorbed : Nat} (hkeep : keep ∈ r.active)
    (habsorbed : absorbed ∈ r.active) (hne : keep ≠ absorbed)
    (hstack : .simplified n :: waiting <:+ r.stack) (h : r.HasRoom waiting n) :
    (r.merge keep absorbed).HasRoom waiting n := by
  obtain ⟨few, hcard, hfew⟩ := h
  refine ⟨few.image (Removal.unify keep absorbed), Finset.card_image_le.trans_lt hcard,
    fun m hm hsettled => ?_⟩
  have hnkeep : n ≠ keep := hr.notMem_stack hkeep (hstack.mem mem_cons_self)
  obtain ⟨-, x, y, hx, rfl, hy⟩ := (hr.mem_neighbours_merge hkeep hne n m).mp hm
  obtain rfl := eq_of_unify hx hnkeep
  refine Finset.mem_image.mpr ⟨y, hfew y hy ?_, rfl⟩
  by_cases hya : y = absorbed
  · rw [hya]
    exact hr.settled ((suffix_cons _ _).trans hstack) habsorbed
  · rwa [Removal.unify, if_neg hya] at hsettled

/-- A move edge is given up between nodes still in the graph, and this takes no room from a
node that left it. -/
theorem HasRoom.freezeEdge (hr : r.Coherent) {a b : Nat} (ha : a ∈ r.active) (hb : b ∈ r.related a)
    (hstack : .simplified n :: waiting <:+ r.stack) (h : r.HasRoom waiting n) :
    (r.freezeEdge a b).HasRoom waiting n := by
  obtain ⟨few, hcard, hfew⟩ := h
  refine ⟨few, hcard, fun m hm => hfew m ?_⟩
  have hout : ∀ {x : Nat}, x ∈ r.active → n ≠ x := fun hx =>
    hr.notMem_stack hx (hstack.mem mem_cons_self)
  obtain hm | ⟨rfl, -⟩ | ⟨rfl, -⟩ := (hr.mem_neighbours_freezeEdge ha hb n m).mp hm
  · exact hm
  · exact absurd rfl (hout ha)
  · exact absurd rfl (hout (hr.related_active hb))

/-- **Every phase leaves room** for the nodes simplified before it, and simplification
removes a node for which there is room. -/
theorem Roomy.phase (h : r.Roomy) (hr : r.Coherent) (hp : Phase r r') : r'.Roomy := by
  intro n waiting hstack
  cases hp with
  | @simplify k hk _ low =>
    obtain heq | hstack := suffix_cons_iff.mp hstack
    · obtain ⟨hn, rfl⟩ := List.cons.inj heq
      obtain rfl := Removal.simplified.inj hn
      refine ⟨r.remainder (r.neighbours n), (card_remainder r _).trans_lt low, fun m hm hsettled =>
        mem_remainder.mpr ⟨hm, ?_⟩⟩
      rw [← Bool.not_eq_true, hr.removed_iff]
      rintro ⟨how, hhow, heq⟩
      exact hsettled how hhow heq
    · exact h hstack
  | @spill k hk _ _ =>
    obtain heq | hstack := suffix_cons_iff.mp hstack
    · cases heq
    · exact h hstack
  | @coalesce a b ha hb _ _ =>
    obtain ⟨hkeep, habsorbed, hne⟩ := hr.ends_active ha hb
    obtain heq | hstack := suffix_cons_iff.mp hstack
    · cases heq
    · exact (h hstack).merge hr hkeep habsorbed hne hstack
  | freeze ha hb _ _ => exact (h hstack).freezeEdge hr ha hb hstack

theorem roomy_exhaust {g : Interference} (hg : g.WellFormed) (registers : Nat) (avoid : TempSet) :
    (new g registers avoid).exhaust.Roomy :=
  (run_induction (P := fun r => r.Coherent ∧ r.Roomy)
    (fun hp h => ⟨h.1.phase hp, h.2.phase h.1 hp⟩) _
    ⟨coherent_new hg registers avoid, fun _ _ hstack =>
      absurd (hstack.mem mem_cons_self) not_mem_nil⟩).2

end Reduction

/-! ## Colours for nodes with room -/

/-- The number of a colour, zero for a node that has none. -/
def NodeColor.number : NodeColor → Nat
  | .color c => c
  | _ => 0

namespace Coloring

/-- Whether a colour was found. -/
def IsColor (color : NodeColor) : Prop := ∃ c, color = .color c

/-- Where fewer neighbours than registers have a colour, a colour is left. -/
theorem isColor_choose {registers : Nat} {colors : Array NodeColor} {neighbours : IndexSet}
    {few : Finset Nat} (hcard : few.card < registers) (hregisters : registers ≤ 64)
    (hfew : ∀ m ∈ neighbours, IsColor (colors.getD m .unset) → m ∈ few) :
    IsColor (choose registers colors neighbours) := by
  cases hfree : (ColorSet.first registers).lowestExcluding (taken colors neighbours) with
  | some c => exact ⟨c, by rw [choose, hfree]⟩
  | none =>
    -- then every colour would be that of a neighbour
    rw [ColorSet.lowestExcluding_eq_none_iff] at hfree
    have hcover : Finset.range registers ⊆ few.image fun m => (colors.getD m .unset).number := by
      intro c hc
      have hlt := Finset.mem_range.mp hc
      have hfirst : (ColorSet.first registers).contains c = true := by
        simp [hlt, hlt.trans_le hregisters]
      obtain ⟨-, m, hm, hcolor⟩ := (contains_taken colors neighbours c).mp (hfree c hfirst)
      refine Finset.mem_image.mpr ⟨m, hfew m hm ⟨c, hcolor⟩, ?_⟩
      rw [hcolor, NodeColor.number]
    have hle := (Finset.card_le_card hcover).trans Finset.card_image_le
    rw [Finset.card_range] at hle
    omega

variable {r : Reduction} {colors : Array NodeColor}

/-- **What selection finds**, when the removals of `back` have been undone and those of
`waiting` have not: only nodes that are settled have a colour, and the simplified ones that
are back do. -/
structure Found (r : Reduction) (back waiting : List Removal) (colors : Array NodeColor) :
    Prop where
  size_eq : colors.size = r.adjacent.size
  settled : ∀ {n : Nat}, IsColor (colors.getD n .unset) → Settled waiting n
  simplified : ∀ {n : Nat}, .simplified n ∈ back → IsColor (colors.getD n .unset)

/-- **One removal undone.** -/
theorem Found.step (hr : r.Coherent) (hroomy : r.Roomy) (hregisters : r.registers ≤ 64)
    {back waiting : List Removal} {how : Removal} (hstack : r.stack = back ++ how :: waiting)
    (h : Found r back (how :: waiting) colors) :
    Found r (back ++ [how]) waiting (restore r colors how) := by
  have hhow : how ∈ r.stack := by simp [hstack]
  have hget := fun n => getD_restore (r := r) (node_lt_size hr h.size_eq hhow) n
  have horder := hr.stack_order
  rw [hstack, pairwise_append, pairwise_cons] at horder
  obtain ⟨-, ⟨hbelow, -⟩, habove⟩ := horder
  refine ⟨(size_restore how).trans h.size_eq, fun {n} hn => ?_, fun {n} hn => ?_⟩
  · by_cases hnode : n = how.node
    · -- the node left the graph once only
      rintro earlier hearlier heq
      refine hbelow earlier hearlier ?_
      rw [heq, hnode]
      exact how.node_mem_nodes
    · rw [hget, if_neg hnode] at hn
      exact (settled_cons.mp (h.settled hn)).2
  · obtain hn | hn := mem_append.mp hn
    · have hne : n ≠ how.node := fun heq =>
        habove _ hn how mem_cons_self (mem_singleton.mpr heq.symm)
      rw [hget, if_neg hne]
      exact h.simplified hn
    · obtain rfl := mem_singleton.mp hn
      have hchosen : (restore r colors (.simplified n)).getD n .unset =
          choose r.registers colors (r.neighbours n) := (hget n).trans (if_pos rfl)
      obtain ⟨few, hcard, hfew⟩ := hroomy ⟨back, hstack.symm⟩
      rw [hchosen]
      exact isColor_choose hcard hregisters fun m hm hcolor =>
        hfew m hm (settled_cons.mp (h.settled hcolor)).2

/-- **Every simplified node finds a colour**, if at the start only nodes that never leave the
graph have one. -/
theorem isColor_select (hr : r.Coherent) (hroomy : r.Roomy) (hregisters : r.registers ≤ 64)
    (hsize : colors.size = r.adjacent.size)
    (hstart : ∀ {n : Nat}, IsColor (colors.getD n .unset) → Settled r.stack n) {n : Nat}
    (hn : .simplified n ∈ r.stack) : IsColor ((select r colors).getD n .unset) := by
  have hinit : Found r [] r.stack (markSpills r.stack colors) := by
    refine ⟨(size_markSpills _ _).trans hsize, fun {n} hn => ?_,
      fun hmem => absurd hmem not_mem_nil⟩
    obtain heq | ⟨heq, -⟩ := getD_markSpills r.stack colors n
    · exact hstart (heq ▸ hn)
    · obtain ⟨c, hc⟩ := hn
      rw [heq] at hc
      cases hc
  exact (restore_induction (fun hstack h => h.step hr hroomy hregisters hstack)
    (nil_append _).symm hinit).simplified hn

end Coloring

/-! ## Nodes without a colour -/

namespace Interference

section Graph

variable {g : Interference} {registers : Nat} (hnodes : g.Nodes registers) (hg : g.WellFormed)
  (avoid : TempSet)

/-- In a graph that was just built, the nodes that have a colour are those coloured from the
start. -/
theorem Nodes.isColor_iff (hnodes : g.Nodes registers) :
    Coloring.IsColor ((g.nodes.map (·.color)).getD i .unset) ↔ g.precolored i = true := by
  cases hn : g.nodes[i]? with
  | none => simp [precolored, Coloring.IsColor, Array.getD_eq_getD_getElem?, hn]
  | some n =>
    rw [g.getD_color hn, precolored_of_node hn, (hnodes.color_eq hn).1, (hnodes.color_eq hn).2]
    obtain ⟨r, -, -, hcolor, hpre⟩ | ⟨hcolor, hpre⟩ := newNode_cases registers n.temp
    · rw [hcolor, hpre]
      exact ⟨fun _ => rfl, fun _ => ⟨r.color, rfl⟩⟩
    · rw [hcolor, hpre]
      exact ⟨fun h => h.elim fun _ hc => NodeColor.noConfusion hc, Bool.noConfusion⟩

include hnodes hg

/-- Nodes coloured from the start keep a colour. -/
theorem isColor_of_precolored (hpre : g.precolored i = true) :
    Coloring.IsColor ((g.finalColors registers avoid).getD i .unset) := by
  rw [finalColors, Coloring.getD_select_of_settled (hg.settled_of_precolored avoid hpre)]
  exact hnodes.isColor_iff.mpr hpre

variable (hregisters : registers ≤ 64)

include hregisters

/-- Simplified nodes find a colour. -/
theorem isColor_of_simplified (hi : .simplified i ∈ (Reduction.new g registers avoid).exhaust.stack) :
    Coloring.IsColor ((g.finalColors registers avoid).getD i .unset) := by
  obtain ⟨hr, ht, hcount⟩ := Reduction.exhaust_new hg registers avoid
  exact Coloring.isColor_select hr (Reduction.roomy_exhaust hg registers avoid)
    (hcount.trans_le hregisters) (Array.size_map.trans ht.size_eq.symm)
    (fun hcolor => hg.settled_of_precolored avoid (hnodes.isColor_iff.mp hcolor)) hi

/-- **A node without a colour was given up**, or the node that stands for it was. -/
theorem mem_stack_of_not_isColor (hi : i < g.nodes.size)
    (hno : ¬ Coloring.IsColor ((g.finalColors registers avoid).getD i .unset)) :
    .spill (g.representative registers avoid i) ∈
      (Reduction.new g registers avoid).exhaust.stack := by
  obtain ⟨hr, ht, -⟩ := Reduction.exhaust_new hg registers avoid
  rw [← finalColors_representative hg] at hno
  have hlt : g.representative registers avoid i < g.nodes.size := by
    obtain heq | ⟨absorbed, hmem⟩ := Removal.standsFor_eq_or
      (Reduction.new g registers avoid).exhaust.stack i
    · exact heq.trans_lt hi
    · exact ((hr.stack_nodes hmem).2 _ mem_cons_self).1.trans_eq ht.size_eq
  have hfree := Bool.eq_false_of_not_eq_true (mt (isColor_of_precolored hnodes hg avoid) hno)
  obtain ⟨how, hmem, heq⟩ := Reduction.exists_removal hg registers avoid hlt hfree
  cases how with
  | simplified n =>
    obtain rfl : n = _ := heq
    exact absurd (isColor_of_simplified hnodes hg avoid hregisters hmem) hno
  | spill n =>
    obtain rfl : n = _ := heq
    exact hmem
  | merged keep absorbed =>
    obtain rfl : absorbed = _ := heq
    exact absurd hmem (merged_representative_notMem hg i keep)

/-- The class of a spilled temp is that of a node that was given up, and no merge absorbed
the temp of that node. -/
theorem exists_spill_of_mem_spilled {t : Temp}
    (ht : t ∈ (g.colorAvoiding registers avoid).1.spilled) :
    ∃ i n, .spill i ∈ (Reduction.new g registers avoid).exhaust.stack ∧ g.nodes[i]? = some n ∧
      (g.colorAvoiding registers avoid).1.Unified t n.temp ∧
      ∀ kept, (kept, n.temp) ∉ (g.colorAvoiding registers avoid).1.merges := by
  obtain ⟨i, n, hn, rfl, hno⟩ := Coloring.mem_spilled_ofGraph.mp ht
  obtain ⟨m, hm, rfl⟩ := exists_node_of_colorAvoiding hn
  have hspill := mem_stack_of_not_isColor hnodes hg avoid hregisters
    (Array.getElem?_eq_some_iff.mp hm).1 fun hcolor => hcolor.elim hno
  obtain ⟨hr, htracks, -⟩ := Reduction.exhaust_new hg registers avoid
  have hlt := ((hr.stack_nodes hspill).2 _ mem_cons_self).1.trans_eq htracks.size_eq
  have hn := Array.getElem?_eq_getElem hlt
  refine ⟨_, _, hspill, hn, ?_, fun kept hmerge => ?_⟩
  · rw [← tempOf_eq hn]
    refine tempOf_eq hm ▸ unified_of_representative hg avoid ?_
    exact (representative_representative hg i).symm
  · obtain ⟨keep, absorbed, -, v, hmem, -, hv, -, heq⟩ := mem_merges_colorAvoiding.mp hmerge
    obtain rfl := hnodes.distinct hv hn heq
    exact merged_representative_notMem hg i keep hmem

/-- Where no node was given up, no temp is spilled. -/
theorem spilled_eq_nil_of_forall_notMem
    (h : ∀ i, .spill i ∉ (Reduction.new g registers avoid).exhaust.stack) :
    (g.colorAvoiding registers avoid).1.spilled = [] := by
  refine eq_nil_iff_forall_not_mem.mpr fun t ht => ?_
  obtain ⟨i, -, hspill, -⟩ := exists_spill_of_mem_spilled hnodes hg avoid hregisters ht
  exact h i hspill

end Graph

/-- **Only what was given up is spilled.** The temps of simplified nodes have a colour, the
class of a spilled temp is that of a node that was given up, and if no node was given up then
nothing is spilled. -/
theorem colored_unless_given_up (code : List Instruction) (live : Liveness) {registers : Nat}
    (hregisters : registers ≤ 64) (avoid : TempSet) :
    let g := build code live registers
    let stack := (Reduction.new g registers avoid).exhaust.stack
    let coloring := (g.colorAvoiding registers avoid).1
    (∀ i n, .simplified i ∈ stack → g.nodes[i]? = some n → ∃ c, coloring.colors[n.temp]? = some c) ∧
    (∀ t ∈ coloring.spilled, ∃ i n, .spill i ∈ stack ∧ g.nodes[i]? = some n ∧
      coloring.Unified t n.temp ∧ ∀ kept, (kept, n.temp) ∉ coloring.merges) ∧
    ((∀ i, .spill i ∉ stack) → coloring.spilled = []) := by
  have hnodes := nodes_build code live registers
  have hg := wellFormed_build code live registers
  refine ⟨fun i n hi hn => ?_,
    fun t ht => exists_spill_of_mem_spilled hnodes hg avoid hregisters ht,
    spilled_eq_nil_of_forall_notMem hnodes hg avoid hregisters⟩
  obtain ⟨c, hc⟩ := isColor_of_simplified hnodes hg avoid hregisters hi
  rw [← finalColors_representative hg] at hc
  exact ⟨c, ((outcome_of_node hnodes hg avoid hn).1 c).mpr hc⟩

/-- With one register the loop gives up the number, which was made one with no other temp. -/
theorem colored_unless_given_up_sumLoop :
    ∃ live s, (Liveness.analyze sumLoop).run.run {} = (.ok live, s) ∧ 1 ≤ 64 ∧
      let g := build sumLoop live 1
      let coloring := (g.colorAvoiding 1 ∅).1
      coloring.spilled = [⟨7, .plain "n"⟩] ∧
      ∃ i n, .spill i ∈ (Reduction.new g 1 ∅).exhaust.stack ∧ g.nodes[i]? = some n ∧
        coloring.Unified ⟨7, .plain "n"⟩ n.temp ∧ ∀ kept, (kept, n.temp) ∉ coloring.merges :=
  ⟨_, _, rfl, by decide, by decide +kernel,
    (colored_unless_given_up sumLoop _ (by decide) ∅).2.1 _ (by decide +kernel)⟩

end Interference

end TreeBackend
