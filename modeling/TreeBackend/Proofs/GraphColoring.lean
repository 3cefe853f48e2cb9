import TreeBackend.Alloc.Coloring
import TreeBackend.Proofs.GraphReduction

/-!
# What a colouring keeps apart

Selection puts the removed nodes back, the latest first. At every moment the
nodes that are *not* still waiting on the stack are properly coloured, and this
is what a restored node relies on: its neighbours have their colours already,
or will look at its own when their turn comes. A node that was made one with
another has no neighbours left, and copies the colour of the node that stands
for it.

`Coloring.Restored` is that invariant. At the end of the stack it speaks of
the reduced graph, where merged nodes are one; since the reduction tracks the
graph it started from, the colours are proper for that graph too.
-/

namespace TreeBackend

open List

namespace Coloring

variable {r : Reduction} {g : Interference} {colors : Array NodeColor}

/-! ## The colour of one node -/

/-- The colours that are taken are those of the neighbours, as far as a set of
colours can tell. -/
theorem contains_taken (colors : Array NodeColor) (neighbours : IndexSet) (c : Nat) :
    (taken colors neighbours).contains c = true
      ↔ c < 64 ∧ ∃ m ∈ neighbours, colors.getD m .unset = .color c := by
  have hfold : ∀ {add : ColorSet → Nat → ColorSet}, (∀ s m, (add s m).contains c = true
        ↔ s.contains c = true ∨ c < 64 ∧ colors.getD m .unset = .color c) →
      ∀ (ms : List Nat) (s : ColorSet), (ms.foldl add s).contains c = true
        ↔ s.contains c = true ∨ c < 64 ∧ ∃ m ∈ ms, colors.getD m .unset = .color c := by
    intro add hadd ms
    induction ms with
    | nil => simp
    | cons m ms ih =>
      intro s
      rw [foldl_cons, ih, hadd, exists_mem_cons_iff]
      grind
  refine (hfold (fun s m => ?_) _ _).trans (by simp)
  cases hm : colors.getD m .unset with
  | color d =>
    simp only [ColorSet.contains_insert, NodeColor.color.injEq]
    grind
  | _ => simp

variable {registers c : Nat} {how : Removal} {waiting back : List Removal}

/-- A node that comes back with a colour has one of the colours there are, and
none of its neighbours has it. -/
theorem choose_eq_color {neighbours : IndexSet} (h : choose registers colors neighbours = .color c) :
    c < registers ∧ ∀ m ∈ neighbours, colors.getD m .unset ≠ .color c := by
  unfold choose at h
  split at h
  · next hc =>
    cases h
    obtain ⟨hfirst, hfree⟩ := ColorSet.lowestExcluding_eq_some hc
    rw [ColorSet.contains_first, Bool.and_eq_true, decide_eq_true_eq, decide_eq_true_eq] at hfirst
    refine ⟨hfirst.1, fun m hm hcolor => ?_⟩
    have htaken := (contains_taken colors neighbours c).mpr ⟨hfirst.2, m, hm, hcolor⟩
    rw [hfree] at htaken
    cases htaken
  · cases h

/-- The colour a removed node comes back with. -/
def restored (r : Reduction) (colors : Array NodeColor) : Removal → NodeColor
  | .simplified n | .spill n => choose r.registers colors (r.neighbours n)
  | .merged keep _ => colors.getD keep .unset

theorem restore_eq (how : Removal) :
    restore r colors how = colors.setIfInBounds how.node (restored r colors how) := by
  cases how <;> rfl

theorem getD_restore (hlt : how.node < colors.size) (n : Nat) : (restore r colors how).getD n .unset
      = if n = how.node then restored r colors how else colors.getD n .unset := by
  rw [restore_eq, Array.getD_eq_getD_getElem?, Array.getD_eq_getD_getElem?,
    Array.getElem?_setIfInBounds]
  by_cases h : how.node = n
  · rw [if_pos h, if_pos h.symm, if_pos (h ▸ hlt)]
    rfl
  · rw [if_neg h, if_neg (Ne.symm h)]

/-! ## The nodes that are back -/

/-- Whether a node is not among those that wait on a stack. -/
def Settled (waiting : List Removal) (n : Nat) : Prop := ∀ how ∈ waiting, how.node ≠ n

theorem settled_cons {n : Nat} : Settled (how :: waiting) n ↔ n ≠ how.node ∧ Settled waiting n := by
  unfold Settled
  rw [forall_mem_cons, ne_comm]

/-- **The invariant of selection**, when the removals of `back` have been undone
and those of `waiting` have not: neighbours that are settled have different
colours, and a merged node that is back has the colour of the node it was made
one with. -/
structure Restored (r : Reduction) (back waiting : List Removal) (colors : Array NodeColor) :
    Prop where
  size_eq : colors.size = r.adjacent.size
  proper : ∀ {n m c : Nat}, Settled waiting n → Settled waiting m → m ∈ r.neighbours n →
    colors.getD n .unset = .color c → colors.getD m .unset ≠ .color c
  shared : ∀ {keep absorbed : Nat}, .merged keep absorbed ∈ back →
    colors.getD absorbed .unset = colors.getD keep .unset

/-- A node that comes back has none of its neighbours' colours. -/
theorem restored_ne (hr : r.Coherent) (hhow : how ∈ r.stack) {m : Nat}
    (hm : m ∈ r.neighbours how.node) (hc : restored r colors how = .color c) :
    colors.getD m .unset ≠ .color c := by
  cases how with
  | simplified | spill => exact (choose_eq_color hc).2 m hm
  | merged keep absorbed => exact absurd hhow (hr.neighbours_whole (hr.neighbours_symm hm) keep)

/-- What undoing one removal keeps holds when all that waits is undone. -/
theorem restore_induction {P : List Removal → List Removal → Array NodeColor → Prop}
    (hstep : ∀ {back waiting : List Removal} {how : Removal} {colors : Array NodeColor},
      r.stack = back ++ how :: waiting → P back (how :: waiting) colors →
      P (back ++ [how]) waiting (restore r colors how))
    {back waiting : List Removal} (hstack : r.stack = back ++ waiting)
    (h : P back waiting colors) : P r.stack [] (waiting.foldl (restore r) colors) := by
  induction waiting generalizing back colors with
  | nil =>
    rw [append_nil] at hstack
    rwa [hstack]
  | cons how waiting ih => exact ih (by rw [hstack, append_assoc]; rfl) (hstep hstack h)

theorem size_restore (how : Removal) : (restore r colors how).size = colors.size := by
  rw [restore_eq, Array.size_setIfInBounds]

/-- The node of a removal on the stack has a place for its colour. -/
theorem node_lt_size (hr : r.Coherent) (hsize : colors.size = r.adjacent.size)
    (hhow : how ∈ r.stack) : how.node < colors.size :=
  ((hr.stack_nodes hhow).2 _ how.node_mem_nodes).1.trans_eq hsize.symm

/-- A merged node that is back keeps the colour of the node it was made one with. -/
theorem shared_restore (hr : r.Coherent) (hsize : colors.size = r.adjacent.size)
    {back waiting : List Removal} {how : Removal} (hstack : r.stack = back ++ how :: waiting)
    (h : ∀ {keep absorbed : Nat}, .merged keep absorbed ∈ back →
      colors.getD absorbed .unset = colors.getD keep .unset)
    {keep absorbed : Nat} (hmem : .merged keep absorbed ∈ back ++ [how]) :
    (restore r colors how).getD absorbed .unset = (restore r colors how).getD keep .unset := by
  have hhow : how ∈ r.stack := by simp [hstack]
  have hget := fun n => getD_restore (r := r) (node_lt_size hr hsize hhow) n
  have horder := hr.stack_order
  rw [hstack, pairwise_append] at horder
  rw [hget, hget]
  obtain hmem | hmem := mem_append.mp hmem
  · -- a later merge speaks of neither end of an earlier removal
    have hnot := horder.2.2 _ hmem how mem_cons_self
    rw [Removal.nodes, mem_pair, not_or] at hnot
    rw [if_neg (Ne.symm hnot.2), if_neg (Ne.symm hnot.1)]
    exact h hmem
  · obtain rfl := mem_singleton.mp hmem
    have hnodup := (hr.stack_nodes hhow).1
    rw [Removal.nodes, nodup_cons, mem_singleton] at hnodup
    show (if absorbed = absorbed then _ else _) = if keep = absorbed then _ else _
    rw [if_pos rfl, if_neg hnodup.1]
    rfl

/-- **One removal undone.** -/
theorem Restored.step (hr : r.Coherent) (hstack : r.stack = back ++ how :: waiting)
    (h : Restored r back (how :: waiting) colors) :
    Restored r (back ++ [how]) waiting (restore r colors how) := by
  have hhow : how ∈ r.stack := by simp [hstack]
  have hget := fun n => getD_restore (r := r) (node_lt_size hr h.size_eq hhow) n
  refine ⟨(size_restore how).trans h.size_eq, ?_, shared_restore hr h.size_eq hstack h.shared⟩
  -- neighbours: the node restored avoids those settled, and those differed before
  intro n m c hn hm hadj hcn hcm
  rw [hget] at hcn hcm
  have hne := hr.neighbours_ne hadj
  by_cases hnode : n = how.node
  · rw [if_pos hnode] at hcn
    rw [if_neg fun he => hne (hnode.trans he.symm)] at hcm
    exact restored_ne hr hhow (hnode ▸ hadj) hcn hcm
  · rw [if_neg hnode] at hcn
    by_cases hmode : m = how.node
    · rw [if_pos hmode] at hcm
      exact restored_ne hr hhow (hmode ▸ hr.neighbours_symm hadj) hcm hcn
    · rw [if_neg hmode] at hcm
      exact h.proper (settled_cons.mpr ⟨hnode, hn⟩) (settled_cons.mpr ⟨hmode, hm⟩) hadj hcn hcm

/-! ## All nodes -/

theorem size_markSpills (stack : List Removal) (colors : Array NodeColor) :
    (markSpills stack colors).size = colors.size := by
  unfold markSpills
  induction stack generalizing colors with
  | nil => rfl
  | cons how stack ih =>
    rw [foldl_cons, ih]
    cases how with
    | spill n => exact Array.size_setIfInBounds
    | _ => rfl

/-- Marking gives no node a colour it did not have, and takes none from a node
that is not on the stack. -/
theorem getD_markSpills (stack : List Removal) (colors : Array NodeColor) (n : Nat) :
    (markSpills stack colors).getD n .unset = colors.getD n .unset
      ∨ (markSpills stack colors).getD n .unset = .toSpill ∧ ¬ Settled stack n := by
  have hstep : ∀ (how : Removal) (colors : Array NodeColor),
      (markSpills [how] colors).getD n .unset = colors.getD n .unset
        ∨ (markSpills [how] colors).getD n .unset = .toSpill ∧ how.node = n := by
    intro how colors
    cases how with
    | spill k =>
      show (colors.setIfInBounds k .toSpill).getD n .unset = _
        ∨ (colors.setIfInBounds k .toSpill).getD n .unset = _ ∧ k = n
      rw [Array.getD_eq_getD_getElem?, Array.getD_eq_getD_getElem?, Array.getElem?_setIfInBounds]
      by_cases hk : k = n
      · subst hk
        by_cases hlt : k < colors.size
        · exact .inr ⟨by simp [hlt], rfl⟩
        · exact .inl (by simp [hlt])
      · exact .inl (by rw [if_neg hk])
    | _ => exact .inl rfl
  induction stack generalizing colors with
  | nil => exact .inl rfl
  | cons how stack ih =>
    have hrest : ∀ {m}, ¬ Settled stack m → ¬ Settled (how :: stack) m :=
      fun h hs => h (settled_cons.mp hs).2
    show (markSpills stack (markSpills [how] colors)).getD n .unset = _ ∨ _
    obtain hn | ⟨hn, hon⟩ := ih (markSpills [how] colors)
    · obtain hc | ⟨hc, hon⟩ := hstep how colors
      · exact .inl (hn.trans hc)
      · exact .inr ⟨hn.trans hc, fun hs => (settled_cons.mp hs).1 hon.symm⟩
    · exact .inr ⟨hn, hrest hon⟩

/-- A merged node has the colour of the node that stands for it. -/
theorem getD_standsFor (stack : List Removal)
    (h : ∀ {keep absorbed : Nat}, .merged keep absorbed ∈ stack →
      colors.getD absorbed .unset = colors.getD keep .unset) (n : Nat) :
    colors.getD (Removal.standsFor stack n) .unset = colors.getD n .unset := by
  induction stack with
  | nil => rfl
  | cons how stack ih =>
    have hrest := ih fun hmem => h (mem_cons_of_mem _ hmem)
    cases how with
    | simplified | spill => exact hrest
    | merged keep absorbed =>
      rw [← hrest]
      show colors.getD (Removal.unify keep absorbed _) .unset = _
      unfold Removal.unify
      split
      · next heq => rw [heq, h mem_cons_self]
      · rfl

/-- **Selection is proper**: if the nodes that never left the graph are properly
coloured, no two nodes joined by an edge of the graph end up with one colour. -/
theorem select_proper (hr : r.Coherent) (ht : Reduction.Tracks g r)
    (hsize : colors.size = g.nodes.size)
    (hstart : ∀ {n m c : Nat}, Settled r.stack n → Settled r.stack m → n ≠ m →
      colors.getD n .unset = .color c → colors.getD m .unset ≠ .color c)
    {n m c : Nat} (hm : m ∈ g.adjacent n) (hc : (select r colors).getD n .unset = .color c) :
    (select r colors).getD m .unset ≠ .color c := by
  have hmark : ∀ {n c}, (markSpills r.stack colors).getD n .unset = .color c →
      colors.getD n .unset = .color c := by
    intro n c hn
    obtain heq | ⟨heq, _⟩ := getD_markSpills r.stack colors n
    · exact heq.symm.trans hn
    · rw [heq] at hn
      cases hn
  have hinit : Restored r [] r.stack (markSpills r.stack colors) :=
    ⟨(size_markSpills _ _).trans (hsize.trans ht.size_eq.symm),
      fun hn hm hadj hcn hcm => hstart hn hm (hr.neighbours_ne hadj) (hmark hcn) (hmark hcm),
      fun hmem => absurd hmem not_mem_nil⟩
  have hend := restore_induction (fun hstack h => h.step hr hstack) (nil_append _).symm hinit
  have hsettled : ∀ n, Settled [] n := fun n how hhow => absurd hhow not_mem_nil
  have hshared := getD_standsFor r.stack hend.shared
  intro hcm
  exact hend.proper (hsettled _) (hsettled _) (ht.mem_neighbours hm) ((hshared n).trans hc)
    ((hshared m).trans hcm)

theorem restored_lt (hregisters : r.registers = registers)
    (h : ∀ {n c : Nat}, colors.getD n .unset = .color c → c < registers)
    (hc : restored r colors how = .color c) : c < registers := by
  cases how with
  | simplified | spill => exact hregisters ▸ (choose_eq_color hc).1
  | merged keep absorbed => exact h hc

/-- Selection uses no colours but those there are. -/
theorem lt_of_select (hregisters : r.registers = registers)
    (hstart : ∀ {n c : Nat}, colors.getD n .unset = .color c → c < registers) {n : Nat}
    (hc : (select r colors).getD n .unset = .color c) : c < registers := by
  have hfold : ∀ (stack : List Removal) (colors : Array NodeColor),
      (∀ {n c : Nat}, colors.getD n .unset = .color c → c < registers) →
      ∀ {n c : Nat}, (stack.foldl (restore r) colors).getD n .unset = .color c → c < registers := by
    intro stack
    induction stack with
    | nil => exact fun colors h => h
    | cons how stack ih =>
      refine fun colors h => ih _ fun {n c} hn => ?_
      by_cases hlt : how.node < colors.size
      · rw [getD_restore hlt] at hn
        split at hn
        · exact restored_lt hregisters h hn
        · exact h hn
      · rw [restore_eq, Array.setIfInBounds_eq_of_size_le (Nat.le_of_not_lt hlt)] at hn
        exact h hn
  refine hfold r.stack _ (fun {n c} hn => ?_) hc
  obtain heq | ⟨heq, _⟩ := getD_markSpills r.stack colors n
  · exact hstart (heq.symm.trans hn)
  · rw [heq] at hn
    cases hn

/-! ## The colours of temps -/

/-- The temps without a colour are those of the nodes without one. -/
theorem spilled_ofGraph_eq_nil_iff (g : Interference) (merges : List (Temp × Temp)) :
    (ofGraph g merges).spilled = [] ↔ ∀ {i : Nat} {n : InterferenceNode}, g.nodes[i]? = some n →
      ∃ c, n.color = .color c := by
  unfold ofGraph
  rw [map_eq_nil_iff, filter_eq_nil_iff]
  constructor
  · intro h i n hn
    have hn := h n (Array.mem_toList_iff.mpr (Array.mem_of_getElem? hn))
    split at hn
    · next c hc => exact ⟨c, hc⟩
    · exact absurd rfl hn
  · intro h n hn
    obtain ⟨i, hi⟩ := Array.mem_iff_getElem?.mp (Array.mem_toList_iff.mp hn)
    obtain ⟨c, hc⟩ := h hi
    rw [hc]
    exact Bool.false_ne_true

/-- A temp has the colour of its nodes, once all of them are collected. -/
theorem getElem?_foldl_insert_color {t : Temp} (ns : List InterferenceNode) (colors : TempMap Nat)
    (hall : ∀ n ∈ ns, n.temp = t → n.color = .color c)
    (hsome : colors[t]? = some c ∨ ∃ n ∈ ns, n.temp = t) :
    (ns.foldl (fun colors n =>
      match n.color with
      | .color c => colors.insert n.temp c
      | _ => colors) colors)[t]? = some c := by
  induction ns generalizing colors with
  | nil => exact hsome.resolve_right (by simp)
  | cons n ns ih =>
    refine ih _ (fun m hm => hall m (mem_cons_of_mem _ hm)) ?_
    dsimp only
    by_cases ht : n.temp = t
    · rw [hall n mem_cons_self ht, ht]
      exact .inl Std.ExtTreeMap.getElem?_insert_self
    · -- the colour of another temp is put elsewhere
      have hsame : (match n.color with
          | .color c => colors.insert n.temp c
          | _ => colors)[t]? = colors[t]? := by
        cases n.color with
        | color d =>
          rw [Std.ExtTreeMap.getElem?_insert, if_neg]
          rwa [Std.LawfulEqOrd.compare_eq_iff_eq]
        | _ => rfl
      rw [hsame]
      refine hsome.imp id ?_
      rintro ⟨m, hm, hmt⟩
      obtain rfl | hm := mem_cons.mp hm
      · exact absurd hmt ht
      · exact ⟨m, hm, hmt⟩

/-- A temp has the colour of its node. -/
theorem getElem?_colors_ofGraph (merges : List (Temp × Temp))
    (hdistinct : ∀ {i j : Nat} {n m : InterferenceNode}, g.nodes[i]? = some n →
      g.nodes[j]? = some m → n.temp = m.temp → i = j)
    {i : Nat} {n : InterferenceNode} (hn : g.nodes[i]? = some n) {c : Nat}
    (hc : n.color = .color c) : (ofGraph g merges).colors[n.temp]? = some c := by
  show (g.nodes.foldl _ ∅)[n.temp]? = some c
  rw [← Array.foldl_toList]
  refine getElem?_foldl_insert_color _ _ (fun m hm ht => ?_) (.inr ⟨n, ?_, rfl⟩)
  · obtain ⟨j, hj⟩ := Array.mem_iff_getElem?.mp (Array.mem_toList_iff.mp hm)
    obtain rfl := hdistinct hj hn ht
    obtain rfl := Option.some.inj (hj.symm.trans hn)
    exact hc
  · exact Array.mem_toList_iff.mpr (Array.mem_of_getElem? hn)

end Coloring

namespace Interference

variable {g : Interference} {registers : Nat} {avoid : TempSet}

/-- The colours a graph's nodes end up with. -/
def finalColors (g : Interference) (registers : Nat) (avoid : TempSet) : Array NodeColor :=
  Coloring.select (Reduction.new g registers avoid).exhaust (g.nodes.map (·.color))

/-- Colouring changes the colours of the nodes and nothing else. -/
theorem getElem?_nodes_colorAvoiding (g : Interference) (registers : Nat) (avoid : TempSet)
    (i : Nat) :
    (g.colorAvoiding registers avoid).2.nodes[i]? = g.nodes[i]?.map fun n =>
      { n with color := (g.finalColors registers avoid).getD i .unset } :=
  Array.getElem?_mapIdx

/-- The colour of a node before colouring, in a graph that was just built, is
that of the register its temp is pinned to. -/
theorem Nodes.pinned?_of_color (hnodes : g.Nodes registers) {i c : Nat}
    (hc : (g.nodes.map (·.color)).getD i .unset = .color c) :
    c < registers ∧ ∃ n r, g.nodes[i]? = some n ∧ n.temp.pinned? = some r ∧ r.color = c := by
  rw [Array.getD_eq_getD_getElem?, Array.getElem?_map] at hc
  cases hn : g.nodes[i]? with
  | none => simp [hn] at hc
  | some n =>
    rw [hn] at hc
    have hcolor : n.color = .color c := hc
    rw [(hnodes.color_eq hn).1] at hcolor
    obtain ⟨r, hr, hlt, heq, _⟩ | ⟨heq, _⟩ := newNode_cases registers n.temp
    · rw [heq, NodeColor.color.injEq] at hcolor
      exact ⟨hcolor ▸ hlt, n, r, rfl, hr, hcolor⟩
    · rw [heq] at hcolor
      cases hcolor

/-- **A colouring without spills**: every temp that has a node has a colour, one
of those there are … -/
theorem exists_color_of_spilled_eq_nil (hnodes : g.Nodes registers) (hg : g.WellFormed)
    (hspilled : (g.colorAvoiding registers avoid).1.spilled = []) {t : Temp} {i : Nat}
    (hi : g.index? t = some i) :
    ∃ c, c < registers ∧ (g.finalColors registers avoid).getD i .unset = .color c
      ∧ (g.colorAvoiding registers avoid).1.colors[t]? = some c := by
  obtain ⟨n, hn, rfl⟩ := exists_node_of_index? hi
  have hn' := getElem?_nodes_colorAvoiding g registers avoid i
  rw [hn] at hn'
  obtain ⟨c, hc⟩ := (Coloring.spilled_ofGraph_eq_nil_iff _ _).mp hspilled hn'
  refine ⟨c, ?_, hc, ?_⟩
  · exact Coloring.lt_of_select (Reduction.exhaust_new hg registers avoid).2.2
      (fun h => (hnodes.pinned?_of_color h).1) hc
  · refine Coloring.getElem?_colors_ofGraph _ (fun {i j n m} hn hm ht => ?_) hn' hc
    rw [getElem?_nodes_colorAvoiding, Option.map_eq_some_iff] at hn hm
    obtain ⟨n, hn, rfl⟩ := hn
    obtain ⟨m, hm, rfl⟩ := hm
    exact hnodes.distinct hn hm ht

/-- … and nodes that interfere have different colours, as long as no two of them
are pinned to one register. -/
theorem finalColors_ne_of_adjacent (hnodes : g.Nodes registers) (hg : g.WellFormed)
    (hpinned : ∀ {i j : Nat} {n m : InterferenceNode} {r : Register}, g.nodes[i]? = some n →
      g.nodes[j]? = some m → n.temp.pinned? = some r → m.temp.pinned? = some r → i = j)
    {n m c : Nat} (hm : m ∈ g.adjacent n)
    (hc : (g.finalColors registers avoid).getD n .unset = .color c) :
    (g.finalColors registers avoid).getD m .unset ≠ .color c := by
  obtain ⟨hr, ht, -⟩ := Reduction.exhaust_new hg registers avoid
  refine Coloring.select_proper hr ht Array.size_map (fun {n m c} _ _ hne hcn hcm => ?_) hm hc
  obtain ⟨-, x, r, hx, hxr, hrc⟩ := hnodes.pinned?_of_color hcn
  obtain ⟨-, y, r', hy, hyr, hrc'⟩ := hnodes.pinned?_of_color hcm
  obtain rfl := Register.color_injective (hrc.trans hrc'.symm)
  exact hne (hpinned hx hy hxr hyr)

end Interference

end TreeBackend
