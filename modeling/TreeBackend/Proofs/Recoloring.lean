import TreeBackend.Proofs.ReductionEnds
import TreeBackend.Proofs.RegisterAssignment

/-!
# Colouring a graph again and again

A graph keeps the colours of its nodes, and a graph that is coloured again
starts from them. What was there before may be anything the last colouring left,
so a node that comes back must not rely on it: it avoids the colours that its
neighbours have at that moment, settled ones and leftovers alike. A leftover is
only ever replaced, and by the time the stack is empty every node has been back
once, apart from those coloured from the start, which are never touched.

`Interference.Fit` is what holds of a graph between two colourings, and
`Coloring.Sound` is what every one of them delivers, whatever the sets of temps
to avoid are and however often the graph was coloured before.
-/

namespace TreeBackend

open List Coloring

variable {c i : Nat}

/-! ## What selection decides -/

namespace Coloring

variable {r : Reduction} {colors : Array NodeColor}

/-- A node that is put back has a colour or is spilled, if the node it copies its
colour from does. -/
theorem restored_decided {how : Removal}
    (hkeep : ∀ {keep absorbed : Nat}, how = .merged keep absorbed →
      colors.getD keep .unset = .spilled ∨ ∃ c, colors.getD keep .unset = .color c) :
    restored r colors how = .spilled ∨ ∃ c, restored r colors how = .color c := by
  have hchoose : ∀ n, choose r.registers colors (r.neighbours n) = .spilled
      ∨ ∃ c, choose r.registers colors (r.neighbours n) = .color c := by
    intro n
    unfold choose
    split
    · exact .inr ⟨_, rfl⟩
    · exact .inl rfl
  cases how with
  | simplified n | spill n => exact hchoose n
  | merged keep absorbed => exact hkeep rfl

/-- Nodes that are settled have a colour or are spilled. -/
def Decided (r : Reduction) (waiting : List Removal) (colors : Array NodeColor) : Prop :=
  ∀ n < r.adjacent.size, Settled waiting n →
    colors.getD n .unset = .spilled ∨ ∃ c, colors.getD n .unset = .color c

/-- **One removal undone** decides one more node. -/
theorem Decided.step (hr : r.Coherent) (hsize : colors.size = r.adjacent.size)
    {back waiting : List Removal} {how : Removal} (hstack : r.stack = back ++ how :: waiting)
    (h : Decided r (how :: waiting) colors) : Decided r waiting (restore r colors how) := by
  have hhow : how ∈ r.stack := by simp [hstack]
  have hnodes := hr.stack_nodes hhow
  have horder := hr.stack_order
  rw [hstack, pairwise_append, pairwise_cons] at horder
  intro n hn hsettled
  rw [getD_restore (node_lt_size hr hsize hhow)]
  split
  · -- a merge happened while the node that stays was there, so that one is back
    refine restored_decided fun {keep absorbed} hmerged => ?_
    subst hmerged
    have hkeep : keep ∈ (Removal.merged keep absorbed).nodes := mem_cons_self
    refine h keep (hnodes.2 keep hkeep).1 (settled_cons.mpr ⟨?_, fun how' hmem heq => ?_⟩)
    · exact (pairwise_pair.mp hnodes.1)
    · exact horder.2.1.1 how' hmem (heq ▸ hkeep)
  · next hne => exact h n hn (settled_cons.mpr ⟨hne, hsettled⟩)

/-- Undoing all removals decides all nodes. -/
theorem Decided.run (hr : r.Coherent) (hsize : colors.size = r.adjacent.size)
    (h : Decided r r.stack colors) : Decided r [] (r.stack.foldl (restore r) colors) :=
  (restore_induction
    (P := fun _ waiting colors => colors.size = r.adjacent.size ∧ Decided r waiting colors)
    (fun hstack h => ⟨(size_restore _).trans h.1, h.2.step hr h.1 hstack⟩)
    (nil_append _).symm ⟨hsize, h⟩).2

/-- Selection leaves a node alone that never left the graph. -/
theorem getD_select_of_settled {n : Nat} (h : Settled r.stack n) :
    (select r colors).getD n .unset = colors.getD n .unset := by
  have hfold : ∀ (stack : List Removal) (colors : Array NodeColor), Settled stack n →
      (stack.foldl (restore r) colors).getD n .unset = colors.getD n .unset := by
    intro stack
    induction stack with
    | nil => exact fun _ _ => rfl
    | cons how stack ih =>
      intro colors hsettled
      rw [foldl_cons, ih _ (settled_cons.mp hsettled).2, restore_eq,
        Array.getD_eq_getD_getElem?, Array.getD_eq_getD_getElem?,
        Array.getElem?_setIfInBounds_ne (settled_cons.mp hsettled).1.symm]
  rw [select, hfold _ _ h]
  exact (getD_markSpills r.stack colors n).resolve_right fun hmarked => hmarked.2 h

/-! ## The colours of temps -/

variable {g : Interference} {merges : List (Temp × Temp)}

/-- A temp has no colour but that of a node of its own. -/
theorem exists_node_of_getElem?_colors {t : Temp} (h : (ofGraph g merges).colors[t]? = some c) :
    ∃ (i : Nat) (n : InterferenceNode), g.nodes[i]? = some n ∧ n.temp = t ∧ n.color = .color c := by
  have hfold : ∀ {record : TempMap Nat → InterferenceNode → TempMap Nat},
      (∀ colors n, (record colors n)[t]? = some c →
        colors[t]? = some c ∨ n.temp = t ∧ n.color = .color c) →
      ∀ (ns : List InterferenceNode) (colors : TempMap Nat), (ns.foldl record colors)[t]? = some c →
        colors[t]? = some c ∨ ∃ n ∈ ns, n.temp = t ∧ n.color = .color c := by
    intro record hrecord ns
    induction ns with
    | nil => exact fun colors h => .inl h
    | cons n ns ih =>
      intro colors h
      obtain h | ⟨m, hm, hmt⟩ := ih _ h
      · exact (hrecord colors n h).imp_right fun hn => ⟨n, mem_cons_self, hn⟩
      · exact .inr ⟨m, mem_cons_of_mem _ hm, hmt⟩
  replace h : (g.nodes.foldl _ ∅)[t]? = some c := h
  rw [← Array.foldl_toList] at h
  refine (hfold (fun colors n h => ?_) _ _ h).elim (fun h => ?_) ?_
  · cases hcolor : n.color with
    | color d =>
      simp only [hcolor, Std.ExtTreeMap.getElem?_insert, Std.LawfulEqOrd.compare_eq_iff_eq] at h
      split at h
      · next ht =>
        rw [Option.some.injEq] at h
        exact .inr ⟨ht, congrArg NodeColor.color h⟩
      · exact .inl h
    | _ =>
      simp only [hcolor] at h
      exact .inl h
  · simp at h
  · rintro ⟨n, hn, ht⟩
    obtain ⟨i, hi⟩ := Array.mem_iff_getElem?.mp (Array.mem_toList_iff.mp hn)
    exact ⟨i, n, hi, ht⟩

theorem mem_spilled_ofGraph {t : Temp} : t ∈ (ofGraph g merges).spilled ↔
      ∃ (i : Nat) (n : InterferenceNode), g.nodes[i]? = some n ∧ n.temp = t ∧
        ∀ c, n.color ≠ .color c := by
  unfold ofGraph
  simp only [mem_map, mem_filter, Array.mem_toList_iff, Array.mem_iff_getElem?]
  constructor
  · rintro ⟨n, ⟨⟨i, hi⟩, hn⟩, ht⟩
    refine ⟨i, n, hi, ht, fun c hc => ?_⟩
    rw [hc] at hn
    cases hn
  · rintro ⟨i, n, hi, ht, hn⟩
    refine ⟨n, ⟨⟨i, hi⟩, ?_⟩, ht⟩
    split
    · next c hc => exact absurd hc (hn c)
    · rfl

section Distinct

variable (hdistinct : ∀ {i j : Nat} {n m : InterferenceNode}, g.nodes[i]? = some n →
  g.nodes[j]? = some m → n.temp = m.temp → i = j)

include hdistinct

/-- Where no temp has two nodes, a temp has a colour exactly if its node does … -/
theorem getElem?_colors_iff {n : InterferenceNode} (hn : g.nodes[i]? = some n) (c : Nat) :
    (ofGraph g merges).colors[n.temp]? = some c ↔ n.color = .color c := by
  refine ⟨fun hc => ?_, getElem?_colors_ofGraph _ hdistinct hn⟩
  obtain ⟨j, m, hm, ht, hcolor⟩ := exists_node_of_getElem?_colors hc
  obtain rfl := hdistinct hm hn ht
  obtain rfl := Option.some.inj (hm.symm.trans hn)
  exact hcolor

/-- … and is spilled exactly if its node has none. -/
theorem mem_spilled_iff {n : InterferenceNode} (hn : g.nodes[i]? = some n) :
    n.temp ∈ (ofGraph g merges).spilled ↔ ∀ c, n.color ≠ .color c := by
  refine mem_spilled_ofGraph.trans ⟨?_, fun hno => ⟨i, n, hn, rfl, hno⟩⟩
  rintro ⟨j, m, hm, ht, hno⟩
  obtain rfl := hdistinct hm hn ht
  obtain rfl := Option.some.inj (hm.symm.trans hn)
  exact hno

/-- No temp is spilled twice. -/
theorem nodup_spilled_ofGraph : (ofGraph g merges).spilled.Nodup := by
  have htemps : (g.nodes.toList.map (·.temp)).Nodup := by
    refine pairwise_iff_getElem.mpr fun i j hi hj hlt heq => ?_
    rw [getElem_map, getElem_map] at heq
    rw [length_map] at hi hj
    refine absurd (hdistinct (i := i) (j := j) ?_ ?_ heq) (Nat.ne_of_lt hlt)
    · rw [← Array.getElem?_toList, List.getElem?_eq_getElem hi]
    · rw [← Array.getElem?_toList, List.getElem?_eq_getElem hj]
  exact htemps.sublist (filter_sublist.map _)

end Distinct

end Coloring

/-! ## Graphs between two colourings -/

namespace Interference

variable {g g' : Interference} {registers : Nat} {avoid : TempSet}

/-- What a graph is apart from the colours of its nodes. -/
def shape (g : Interference) : Array InterferenceNode :=
  g.nodes.map fun n => { n with color := .unset }

/-- The edges of a graph, and which nodes are coloured from the start, are part of
its shape. -/
theorem eq_of_shape (h : g.shape = g'.shape) (i : Nat) :
    g.adjacent i = g'.adjacent i ∧ g.moves i = g'.moves i ∧ g.precolored i = g'.precolored i := by
  have hbare : ∀ g : Interference, g.adjacent i = (⟨g.shape⟩ : Interference).adjacent i
      ∧ g.moves i = (⟨g.shape⟩ : Interference).moves i
      ∧ g.precolored i = (⟨g.shape⟩ : Interference).precolored i := by
    intro g
    unfold adjacent moves precolored shape
    rw [Array.getElem?_map]
    cases g.nodes[i]? <;> exact ⟨rfl, rfl, rfl⟩
  rw [(hbare g).1, (hbare g).2.1, (hbare g).2.2, h]
  exact ⟨(hbare g').1.symm, (hbare g').2.1.symm, (hbare g').2.2.symm⟩

theorem WellFormed.congr_shape (hg : g.WellFormed) (h : g.shape = g'.shape) : g'.WellFormed := by
  have hadj : ∀ i, g'.adjacent i = g.adjacent i := fun i => (eq_of_shape h i).1.symm
  have hmov : ∀ i, g'.moves i = g.moves i := fun i => (eq_of_shape h i).2.1.symm
  have hpre : ∀ i, g'.precolored i = g.precolored i := fun i => (eq_of_shape h i).2.2.symm
  have hsize : g'.nodes.size = g.nodes.size := by simpa [shape] using congrArg Array.size h.symm
  constructor
  case adjacent_symm => simpa only [hadj] using @hg.adjacent_symm
  case adjacent_ne => simpa only [hadj] using @hg.adjacent_ne
  case adjacent_lt => simpa only [hadj, hsize] using @hg.adjacent_lt
  case moves_symm => simpa only [hmov] using @hg.moves_symm
  case moves_ne => simpa only [hmov] using @hg.moves_ne
  case moves_lt => simpa only [hmov, hsize] using @hg.moves_lt
  case moves_apart => simpa only [hmov, hadj] using @hg.moves_apart
  case moves_precolored => simpa only [hmov, hpre] using @hg.moves_precolored

/-- **Fit for colouring**: edges are well formed, a temp has one node only, a node
coloured from the start has the colour of the register its temp is pinned to and
no other such node has it, and every colour is one of those there are. -/
structure Fit (registers : Nat) (g : Interference) : Prop where
  wellFormed : g.WellFormed
  distinct : ∀ {i j : Nat} {n m : InterferenceNode}, g.nodes[i]? = some n →
    g.nodes[j]? = some m → n.temp = m.temp → i = j
  pinned : ∀ {i : Nat} {n : InterferenceNode}, g.nodes[i]? = some n → n.precolored = true →
    ∃ r, n.temp.pinned? = some r ∧ n.color = .color r.color
  pinned_distinct : ∀ {i j : Nat} {n m : InterferenceNode} {r : Register}, g.nodes[i]? = some n →
    g.nodes[j]? = some m → n.temp.pinned? = some r → m.temp.pinned? = some r → i = j
  color_lt : ∀ {i : Nat} {n : InterferenceNode} {c : Nat}, g.nodes[i]? = some n →
    n.color = .color c → c < registers

/-- A graph that was just built is fit. -/
theorem fit_build {s : Session} {code : List Instruction} (howned : ∀ i ∈ code, i.OwnedBy s)
    (live : Liveness) (registers : Nat) : Fit registers (build code live registers) where
  wellFormed := wellFormed_build code live registers
  distinct := (nodes_build code live registers).distinct
  pinned {i n} hn hpre := by
    obtain ⟨hcolor, hprecolored⟩ := (nodes_build code live registers).color_eq hn
    obtain ⟨r, hr, _, heq, _⟩ | ⟨_, hno⟩ := newNode_cases registers n.temp
    · exact ⟨r, hr, hcolor.trans heq⟩
    · rw [hprecolored, hno] at hpre
      cases hpre
  pinned_distinct := Interference.pinned_distinct howned
  color_lt {i n c} hn hc := by
    refine ((nodes_build code live registers).pinned?_of_color (i := i) ?_).1
    rw [Array.getD_eq_getD_getElem?, Array.getElem?_map, hn]
    exact hc

variable {n : InterferenceNode}

/-- The colour of a node before it is coloured again. -/
theorem getD_color (g : Interference) (hn : g.nodes[i]? = some n) :
    (g.nodes.map (·.color)).getD i .unset = n.color := by
  rw [Array.getD_eq_getD_getElem?, Array.getElem?_map, hn]
  rfl

/-- The node behind a colour. -/
theorem exists_node_of_getD_color (h : (g.nodes.map (·.color)).getD i .unset = .color c) :
    ∃ n, g.nodes[i]? = some n ∧ n.color = .color c := by
  rw [Array.getD_eq_getD_getElem?, Array.getElem?_map] at h
  cases hn : g.nodes[i]? with
  | none =>
    rw [hn] at h
    cases h
  | some n =>
    rw [hn] at h
    exact ⟨n, rfl, h⟩

theorem precolored_of_node (hn : g.nodes[i]? = some n) : g.precolored i = n.precolored := by
  rw [precolored, hn]

/-- Only nodes coloured from the start are never put back … -/
theorem WellFormed.precolored_of_settled (hg : g.WellFormed) (avoid : TempSet)
    (hn : g.nodes[i]? = some n)
    (hsettled : Coloring.Settled (Reduction.new g registers avoid).exhaust.stack i) :
    n.precolored = true := by
  by_contra hno
  have hfree := (precolored_of_node hn).trans (Bool.eq_false_of_not_eq_true hno)
  obtain ⟨how, hmem, heq⟩ := Reduction.exists_removal hg registers avoid
    (Array.getElem?_eq_some_iff.mp hn).1 hfree
  exact hsettled how hmem heq

/-- … and they never are. -/
theorem WellFormed.settled_of_precolored (hg : g.WellFormed) (avoid : TempSet)
    (hpre : g.precolored i = true) :
    Coloring.Settled (Reduction.new g registers avoid).exhaust.stack i := by
  obtain ⟨hr, ht, -⟩ := Reduction.exhaust_new hg registers avoid
  rintro how hmem rfl
  have hno := ((hr.stack_nodes hmem).2 _ how.node_mem_nodes).2
  rw [ht.precolored_eq] at hno
  exact Bool.noConfusion (hpre.symm.trans hno)

section Recoloring

variable (h : Fit registers g) (avoid : TempSet)
include h

theorem Fit.finalColors_precolored {n : InterferenceNode} (hn : g.nodes[i]? = some n)
    (hpre : n.precolored = true) : (g.finalColors registers avoid).getD i .unset = n.color :=
  (getD_select_of_settled (h.wellFormed.settled_of_precolored avoid
    ((precolored_of_node hn).trans hpre))).trans (g.getD_color hn)

/-- **Every node is decided**, whatever colours the graph had before. -/
theorem Fit.finalColors_decided (hi : i < g.nodes.size) :
    (g.finalColors registers avoid).getD i .unset = .spilled
      ∨ ∃ c, (g.finalColors registers avoid).getD i .unset = .color c := by
  obtain ⟨hr, ht, _⟩ := Reduction.exhaust_new h.wellFormed registers avoid
  refine Coloring.Decided.run hr ?_ (fun n hn hsettled => ?_) i
    (hi.trans_eq ht.size_eq.symm) fun how hmem => absurd hmem not_mem_nil
  · rw [size_markSpills, Array.size_map, ht.size_eq]
  · -- what never left the graph has the colour it had from the start
    have hnode := Array.getElem?_eq_getElem (hn.trans_eq ht.size_eq)
    have hpre := h.wellFormed.precolored_of_settled avoid hnode hsettled
    obtain ⟨r, _, hcolor⟩ := h.pinned hnode hpre
    have hmark := (getD_markSpills _ (g.nodes.map (·.color)) n).resolve_right
      fun hmarked => hmarked.2 hsettled
    exact .inr ⟨r.color, hmark.trans ((g.getD_color hnode).trans hcolor)⟩

theorem Fit.finalColors_lt (hc : (g.finalColors registers avoid).getD i .unset = .color c) :
    c < registers := by
  refine lt_of_select (Reduction.exhaust_new h.wellFormed registers avoid).2.2 (fun hold => ?_) hc
  obtain ⟨n, hn, hcolor⟩ := exists_node_of_getD_color hold
  exact h.color_lt hn hcolor

/-- **Neighbours have different colours**, whatever colours they had before. -/
theorem Fit.finalColors_ne {j : Nat} (hadj : j ∈ g.adjacent i)
    (hc : (g.finalColors registers avoid).getD i .unset = .color c) :
    (g.finalColors registers avoid).getD j .unset ≠ .color c := by
  obtain ⟨hr, ht, _⟩ := Reduction.exhaust_new h.wellFormed registers avoid
  refine select_proper hr ht Array.size_map (fun {n m c} hn hm hne hcn hcm => ?_) hadj hc
  -- nodes that never left the graph are pinned, to different registers
  obtain ⟨x, hx, hxc⟩ := exists_node_of_getD_color hcn
  obtain ⟨y, hy, hyc⟩ := exists_node_of_getD_color hcm
  obtain ⟨p, hp, hpc⟩ := h.pinned hx (h.wellFormed.precolored_of_settled avoid hx hn)
  obtain ⟨q, hq, hqc⟩ := h.pinned hy (h.wellFormed.precolored_of_settled avoid hy hm)
  have hpq : p.color = q.color := by
    rw [hpc, NodeColor.color.injEq] at hxc
    rw [hqc, NodeColor.color.injEq] at hyc
    exact hxc.trans hyc.symm
  obtain rfl := Register.color_injective hpq
  exact hne (h.pinned_distinct hx hy hp hq)

end Recoloring

/-- Colouring keeps the shape of the graph. -/
theorem shape_colorAvoiding (g : Interference) (registers : Nat) (avoid : TempSet) :
    (g.colorAvoiding registers avoid).2.shape = g.shape := by
  refine Array.ext_getElem? fun i => ?_
  unfold shape
  rw [Array.getElem?_map, Array.getElem?_map, getElem?_nodes_colorAvoiding, Option.map_map]
  rfl

/-- The node of a coloured graph, and the node it was before. -/
theorem exists_node_of_colorAvoiding (hn : (g.colorAvoiding registers avoid).2.nodes[i]? = some n) :
    ∃ m, g.nodes[i]? = some m ∧
      n = { m with color := (g.finalColors registers avoid).getD i .unset } := by
  rw [getElem?_nodes_colorAvoiding, Option.map_eq_some_iff] at hn
  obtain ⟨m, hm, rfl⟩ := hn
  exact ⟨m, hm, rfl⟩

/-- Colouring gives no temp a second node. -/
theorem distinct_colorAvoiding (hdistinct : ∀ {i j : Nat} {n m : InterferenceNode},
      g.nodes[i]? = some n → g.nodes[j]? = some m → n.temp = m.temp → i = j)
    {i j : Nat} {n m : InterferenceNode}
    (hn : (g.colorAvoiding registers avoid).2.nodes[i]? = some n)
    (hm : (g.colorAvoiding registers avoid).2.nodes[j]? = some m) (heq : n.temp = m.temp) :
    i = j := by
  obtain ⟨x, hx, rfl⟩ := exists_node_of_colorAvoiding hn
  obtain ⟨y, hy, rfl⟩ := exists_node_of_colorAvoiding hm
  exact hdistinct hx hy heq

/-- **A coloured graph is fit to be coloured again.** -/
theorem Fit.colorAvoiding (h : Fit registers g) (avoid : TempSet) :
    Fit registers (g.colorAvoiding registers avoid).2 where
  wellFormed := h.wellFormed.congr_shape (shape_colorAvoiding g registers avoid).symm
  distinct := distinct_colorAvoiding h.distinct
  pinned hx hpre := by
    obtain ⟨n, hn, rfl⟩ := exists_node_of_colorAvoiding hx
    obtain ⟨r, hr, hcolor⟩ := h.pinned hn hpre
    exact ⟨r, hr, (h.finalColors_precolored avoid hn hpre).trans hcolor⟩
  pinned_distinct hx hy hnr hmr := by
    obtain ⟨n, hn, rfl⟩ := exists_node_of_colorAvoiding hx
    obtain ⟨m, hm, rfl⟩ := exists_node_of_colorAvoiding hy
    exact h.pinned_distinct hn hm hnr hmr
  color_lt hx hc := by
    obtain ⟨n, _, rfl⟩ := exists_node_of_colorAvoiding hx
    exact h.finalColors_lt avoid hc

/-- The graph after it was coloured once for each of some sets of temps to avoid. -/
def recolored (g : Interference) (registers : Nat) (avoids : List TempSet) : Interference :=
  avoids.foldl (fun g avoid => (g.colorAvoiding registers avoid).2) g

theorem Fit.recolored (h : Fit registers g) (avoids : List TempSet) :
    Fit registers (g.recolored registers avoids) := by
  induction avoids generalizing g with
  | nil => exact h
  | cons avoid avoids ih => exact ih (h.colorAvoiding avoid)

theorem shape_recolored (g : Interference) (registers : Nat) (avoids : List TempSet) :
    (g.recolored registers avoids).shape = g.shape := by
  induction avoids generalizing g with
  | nil => rfl
  | cons avoid avoids ih =>
    exact (ih (g.colorAvoiding registers avoid).2).trans (shape_colorAvoiding g registers avoid)

end Interference

/-! ## What every colouring delivers -/

/-- A colouring of a graph, given with the graph that its colours were written to,
is **sound** for the graph that was built:

* nothing but colours has changed;
* every node has a colour or is spilled, and its temp is listed accordingly,
  once;
* colours are among those there are, nodes coloured from the start keep the
  colour of their register, and no edge joins two nodes of one colour. -/
structure Coloring.Sound (built : Interference) (registers : Nat)
    (result : Coloring × Interference) : Prop where
  shape : result.2.shape = built.shape
  decided : ∀ {i : Nat} {n : InterferenceNode}, result.2.nodes[i]? = some n →
    n.color = .spilled ∨ ∃ c, n.color = .color c
  colored : ∀ {i : Nat} {n : InterferenceNode}, result.2.nodes[i]? = some n →
    ∀ c, result.1.colors[n.temp]? = some c ↔ n.color = .color c
  spilled : ∀ {i : Nat} {n : InterferenceNode}, result.2.nodes[i]? = some n →
    (n.temp ∈ result.1.spilled ↔ n.color = .spilled)
  once : ∀ {i : Nat} {n : InterferenceNode}, result.2.nodes[i]? = some n →
    n.temp ∈ result.1.colors ∧ n.temp ∉ result.1.spilled
      ∨ n.temp ∉ result.1.colors ∧ result.1.spilled.count n.temp = 1
  color_lt : ∀ {i : Nat} {n : InterferenceNode} {c : Nat}, result.2.nodes[i]? = some n →
    n.color = .color c → c < registers
  pinned : ∀ {i : Nat} {n : InterferenceNode}, result.2.nodes[i]? = some n →
    n.precolored = true → ∃ r, n.temp.pinned? = some r ∧ n.color = .color r.color
  proper : ∀ {i j : Nat} {n m : InterferenceNode} {c : Nat}, j ∈ built.adjacent i →
    result.2.nodes[i]? = some n → result.2.nodes[j]? = some m → n.color = .color c →
    m.color ≠ .color c

namespace Interference

variable {g : Interference} {registers : Nat}

theorem Fit.sound (h : Fit registers g) (avoid : TempSet) :
    Coloring.Sound g registers (g.colorAvoiding registers avoid) := by
  have h' := h.colorAvoiding avoid
  have hcolored : ∀ {i : Nat} {n : InterferenceNode},
      (g.colorAvoiding registers avoid).2.nodes[i]? = some n →
      ∀ c, (g.colorAvoiding registers avoid).1.colors[n.temp]? = some c ↔ n.color = .color c :=
    Coloring.getElem?_colors_iff h'.distinct
  have hdecided : ∀ {i : Nat} {n : InterferenceNode},
      (g.colorAvoiding registers avoid).2.nodes[i]? = some n →
      n.color = .spilled ∨ ∃ c, n.color = .color c := by
    intro i n hn
    obtain ⟨m, hm, rfl⟩ := exists_node_of_colorAvoiding hn
    exact h.finalColors_decided avoid (Array.getElem?_eq_some_iff.mp hm).1
  have hspilled : ∀ {i : Nat} {n : InterferenceNode},
      (g.colorAvoiding registers avoid).2.nodes[i]? = some n →
      (n.temp ∈ (g.colorAvoiding registers avoid).1.spilled ↔ n.color = .spilled) := by
    intro i n hn
    refine (mem_spilled_iff h'.distinct hn).trans ⟨fun hno => ?_, fun hs c hc => ?_⟩
    · exact (hdecided hn).resolve_right fun ⟨c, hc⟩ => hno c hc
    · rw [hs] at hc
      cases hc
  refine ⟨shape_colorAvoiding g registers avoid, hdecided, hcolored, hspilled, fun hn => ?_,
    h'.color_lt, h'.pinned, fun {i j n m c} hadj hn hm hc => ?_⟩
  · -- a node is coloured or spilled, and never both
    obtain hs | ⟨c, hc⟩ := hdecided hn
    · refine .inr ⟨fun hmem => ?_, ?_⟩
      · obtain ⟨c, hc⟩ := Option.isSome_iff_exists.mp
          (Std.ExtTreeMap.isSome_getElem?_iff_mem.mpr hmem)
        rw [(hcolored hn c).mp hc] at hs
        cases hs
      · exact count_eq_one_of_mem (nodup_spilled_ofGraph h'.distinct) ((hspilled hn).mpr hs)
    · refine .inl ⟨?_, fun hmem => ?_⟩
      · rw [← Std.ExtTreeMap.isSome_getElem?_iff_mem, (hcolored hn c).mpr hc]
        rfl
      · rw [(hspilled hn).mp hmem] at hc
        cases hc
  · obtain ⟨x, hx, rfl⟩ := exists_node_of_colorAvoiding hn
    obtain ⟨y, hy, rfl⟩ := exists_node_of_colorAvoiding hm
    exact h.finalColors_ne avoid hadj hc

/-- **Every colouring of a graph is sound.** The graph is built for code of one
session under any live sets, and was coloured any number of times before, each
time with temps to avoid of its own. -/
theorem colorAvoiding_sound {s : Session} {code : List Instruction}
    (howned : ∀ i ∈ code, i.OwnedBy s) (live : Liveness) (registers : Nat)
    (earlier : List TempSet) (avoid : TempSet) :
    Coloring.Sound (build code live registers) registers
      (((build code live registers).recolored registers earlier).colorAvoiding registers
        avoid) := by
  have hsound := ((fit_build howned live registers).recolored earlier).sound avoid
  have hshape := shape_recolored (build code live registers) registers earlier
  exact { hsound with
    shape := hsound.shape.trans hshape
    proper := fun hadj => hsound.proper ((eq_of_shape hshape _).1 ▸ hadj) }

/-- One register is not enough for the loop: the number is spilled. Coloured a
second time, with the number to be avoided, the graph gives up the sum, and the
number takes the colour that the sum had. -/
theorem colorAvoiding_sound_sumLoop :
    ∃ live s, (Liveness.analyze sumLoop).run.run {} = (.ok live, s) ∧
      (∀ i ∈ sumLoop, i.OwnedBy (.ofTemps ["n", "sum"])) ∧
      let g := build sumLoop live 1
      let n : Temp := ⟨7, .plain "n"⟩
      (g.colorAvoiding 1 ∅).1.spilled = [n] ∧
      ((g.recolored 1 [∅]).colorAvoiding 1 (TempSet.ofList [n])).1.spilled = [⟨8, .plain "sum"⟩] ∧
      Coloring.Sound g 1 ((g.recolored 1 [∅]).colorAvoiding 1 (TempSet.ofList [n])) :=
  ⟨_, _, rfl, by decide, by decide +kernel, by decide +kernel,
    colorAvoiding_sound (s := .ofTemps ["n", "sum"]) (by decide) _ 1 [∅] _⟩

end Interference

end TreeBackend
