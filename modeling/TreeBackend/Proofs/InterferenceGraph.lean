import TreeBackend.Alloc.Interference
import TreeBackend.Proofs.LiveSets

/-!
# What an interference graph is made of

Building a graph is a long series of small additions: a node for every temp,
then an edge or a move edge for every pair of temps some instruction speaks
of. None of the additions changes *which* nodes there are, so the nodes can be
read off before the first edge is added, and every edge of the finished graph
can be traced back to the instruction that added it.

* `Interference.identities` is what the edges leave alone: temp, colour and
  whether the colour is fixed, for every node.
* `Interference.mem_adjacent_build` says which edges there are.
* `Interference.WellFormed` says that edges run both ways and join different
  nodes, and that move edges keep clear of them.
-/

namespace TreeBackend

open List Std.ExtTreeSet

variable {n : InterferenceNode} {f : InterferenceNode → InterferenceNode} {temps : List Temp}

namespace Interference

variable {g g' : Interference}

/-! ## What edges leave alone -/

/-- What a node is, apart from its edges. -/
def identities (g : Interference) : Array (Temp × NodeColor × Bool) :=
  g.nodes.map fun n => (n.temp, n.color, n.precolored)

/-- A temp is found by the identities of nodes alone. -/
theorem index?_eq_findIdx? (g : Interference) (t : Temp) :
    g.index? t = g.identities.findIdx? fun x => x.1 = t := by
  unfold identities
  rw [Array.findIdx?_map]
  rfl

/-- Whether a node has a fixed colour is part of its identity. -/
theorem precolored_eq (g : Interference) (i : Nat) :
    g.precolored i = (g.identities[i]?.map fun x => x.2.2).getD false := by
  unfold identities precolored
  rw [Array.getElem?_map]
  cases g.nodes[i]? <;> rfl

theorem index?_congr (h : g.identities = g'.identities) (t : Temp) : g.index? t = g'.index? t := by
  rw [index?_eq_findIdx?, index?_eq_findIdx?, h]

theorem precolored_congr (h : g.identities = g'.identities) (i : Nat) :
    g.precolored i = g'.precolored i := by
  rw [precolored_eq, precolored_eq, h]

theorem size_identities (g : Interference) : g.identities.size = g.nodes.size := Array.size_map

variable {t a b : Temp} {i m registers : Nat}

/-- The number of a temp's node is the number of a node. -/
theorem lt_of_index? (h : g.index? t = some i) : i < g.nodes.size :=
  (Array.findIdx?_eq_some_iff_getElem.mp h).1

/-- Nodes that are changed but for their edges are the same nodes. -/
theorem identities_modify
    (hf : ∀ n, (f n).temp = n.temp ∧ (f n).color = n.color ∧ (f n).precolored = n.precolored) :
    ({ g with nodes := g.nodes.modify i f } : Interference).identities = g.identities := by
  unfold identities
  refine Array.ext_getElem? fun j => ?_
  rw [Array.getElem?_map, Array.getElem?_map, Array.getElem?_modify]
  split
  · cases g.nodes[j]? with
    | none => rfl
    | some n =>
      obtain ⟨ht, hc, hp⟩ := hf n
      simp only [Option.map_some, ht, hc, hp]
  · rfl

@[simp] theorem identities_attach (g : Interference) (i j : Nat) :
    (g.attach i j).identities = g.identities :=
  identities_modify fun _ => ⟨rfl, rfl, rfl⟩

@[simp] theorem identities_attachMove (g : Interference) (i j : Nat) :
    (g.attachMove i j).identities = g.identities :=
  identities_modify fun _ => ⟨rfl, rfl, rfl⟩

@[simp] theorem identities_addEdge (g : Interference) (a b : Temp) :
    (g.addEdge a b).identities = g.identities := by
  unfold addEdge
  split
  · split
    · rfl
    · rw [identities_attach, identities_attach]
  · rfl

@[simp] theorem identities_addMove (g : Interference) (a b : Temp) :
    (g.addMove a b).identities = g.identities := by
  unfold addMove
  split
  · split
    · rfl
    · rw [identities_attachMove, identities_attachMove]
  · rfl

/-! ## One edge -/

/-- One of the two edge sets of a node is changed by a change to the node, and
those of all other nodes are not. -/
theorem edges_modify (edges : InterferenceNode → IndexSet) (change : IndexSet → IndexSet)
    (hf : ∀ n, edges (f n) = change (edges n)) {nodes : Array InterferenceNode}
    (hi : i < nodes.size) (n : Nat) :
    (match (nodes.modify i f)[n]? with | some n => edges n | none => ∅)
      = if n = i then change (match nodes[n]? with | some n => edges n | none => ∅)
        else match nodes[n]? with | some n => edges n | none => ∅ := by
  rw [Array.getElem?_modify]
  by_cases h : i = n
  · subst h
    rw [if_pos rfl, if_pos rfl, Array.getElem?_eq_getElem hi]
    exact hf _
  · rw [if_neg h, if_neg (Ne.symm h)]

/-- Attaching adds one neighbour to one node. -/
theorem adjacent_attach (g : Interference) (hi : i < g.nodes.size) (j n : Nat) :
    (g.attach i j).adjacent n = if n = i then (g.adjacent n).insert j else g.adjacent n :=
  edges_modify (·.adjacent) (·.insert j) (fun _ => rfl) hi n

/-- And it takes the move between them away. -/
theorem moves_attach (g : Interference) (hi : i < g.nodes.size) (j n : Nat) :
    (g.attach i j).moves n = if n = i then (g.moves n).erase j else g.moves n :=
  edges_modify (·.moves) (·.erase j) (fun _ => rfl) hi n

/-- A move leaves neighbours as they are. -/
theorem adjacent_attachMove (g : Interference) (hi : i < g.nodes.size) (j n : Nat) :
    (g.attachMove i j).adjacent n = g.adjacent n := by
  refine (edges_modify (f := fun n => { n with moves := n.moves.insert j }) (·.adjacent) id
    (fun _ => rfl) hi n).trans ?_
  exact ite_self _

/-- It is added at one node. -/
theorem moves_attachMove (g : Interference) (hi : i < g.nodes.size) (j n : Nat) :
    (g.attachMove i j).moves n = if n = i then (g.moves n).insert j else g.moves n :=
  edges_modify (·.moves) (·.insert j) (fun _ => rfl) hi n

/-- The nodes at `n` and `m` are the different nodes of the temps `a` and `b`,
in either order. -/
def Joined (g : Interference) (a b : Temp) (n m : Nat) : Prop :=
  n ≠ m ∧ (g.index? a = some n ∧ g.index? b = some m ∨ g.index? a = some m ∧ g.index? b = some n)

/-- Joining two temps joins both nodes. -/
theorem Joined.symm {n : Nat} (h : g.Joined a b n m) : g.Joined a b m n := ⟨h.1.symm, h.2.symm⟩

theorem joined_congr (h : g.identities = g'.identities) (a b : Temp) (n m : Nat) :
    g.Joined a b n m ↔ g'.Joined a b n m := by
  unfold Joined
  rw [index?_congr h, index?_congr h]

/-- Two different nodes are joined, whichever is named first. -/
theorem joined_iff_of_index? {j : Nat} (ha : g.index? a = some i) (hb : g.index? b = some j)
    {n : Nat} : g.Joined a b n m ↔ i ≠ j ∧ (n = i ∧ m = j ∨ n = j ∧ m = i) := by
  unfold Joined
  rw [ha, hb]
  constructor
  · rintro ⟨hne, ⟨⟨⟩, ⟨⟩⟩ | ⟨⟨⟩, ⟨⟩⟩⟩
    · exact ⟨hne, .inl ⟨rfl, rfl⟩⟩
    · exact ⟨hne.symm, .inr ⟨rfl, rfl⟩⟩
  · rintro ⟨hne, ⟨rfl, rfl⟩ | ⟨rfl, rfl⟩⟩
    · exact ⟨hne, .inl ⟨rfl, rfl⟩⟩
    · exact ⟨hne.symm, .inr ⟨rfl, rfl⟩⟩

/-- Adding an edge between two temps either changes nothing, or attaches their
nodes to one another. -/
theorem addEdge_cases (g : Interference) (a b : Temp) :
    (g.addEdge a b = g ∧ ∀ n m, ¬ g.Joined a b n m)
    ∨ ∃ i j, i < g.nodes.size ∧ j < (g.attach i j).nodes.size ∧ i ≠ j
      ∧ g.addEdge a b = (g.attach i j).attach j i
      ∧ ∀ n m, g.Joined a b n m ↔ n = i ∧ m = j ∨ n = j ∧ m = i := by
  unfold addEdge
  cases ha : g.index? a with
  | none => exact .inl ⟨rfl, by simp [Joined, ha]⟩
  | some i =>
    cases hb : g.index? b with
    | none => exact .inl ⟨rfl, by simp [Joined, hb]⟩
    | some j =>
      have hjoined := fun n m => joined_iff_of_index? ha hb (n := n) (m := m)
      by_cases hij : i = j
      · exact .inl ⟨if_pos hij, fun n m h => ((hjoined n m).mp h).1 hij⟩
      · refine .inr ⟨i, j, lt_of_index? ha, ?_, hij, if_neg hij,
          fun n m => (hjoined n m).trans (and_iff_right hij)⟩
        rw [← size_identities, identities_attach, size_identities]
        exact lt_of_index? hb

/-- An edge between two temps joins their nodes, both ways. -/
theorem mem_adjacent_addEdge (g : Interference) (a b : Temp) (n m : Nat) :
    m ∈ (g.addEdge a b).adjacent n ↔ m ∈ g.adjacent n ∨ g.Joined a b n m := by
  obtain ⟨heq, hno⟩ | ⟨i, j, hi, hj, hij, heq, hjoin⟩ := addEdge_cases g a b
  · rw [heq, or_iff_left (hno n m)]
  · rw [heq, hjoin, adjacent_attach _ hj, adjacent_attach _ hi]
    grind [Std.LawfulEqOrd.compare_eq_iff_eq]

/-- An edge between two temps takes the place of a move edge. -/
theorem mem_moves_addEdge (g : Interference) (a b : Temp) (n m : Nat) :
    m ∈ (g.addEdge a b).moves n ↔ m ∈ g.moves n ∧ ¬ g.Joined a b n m := by
  obtain ⟨heq, hno⟩ | ⟨i, j, hi, hj, hij, heq, hjoin⟩ := addEdge_cases g a b
  · rw [heq, and_iff_left (hno n m)]
  · rw [heq, hjoin, moves_attach _ hj, moves_attach _ hi]
    grind [Std.LawfulEqOrd.compare_eq_iff_eq]

/-- Adding a move edge between two temps either changes nothing, and then nothing
may relate their nodes, or relates their nodes to one another. -/
theorem addMove_cases (g : Interference) (a b : Temp) :
    (g.addMove a b = g ∧ ∀ n m, g.Joined a b n m → g.precolored n = true ∨ g.precolored m = true
      ∨ m ∈ g.adjacent n ∨ n ∈ g.adjacent m)
    ∨ ∃ i j, i < g.nodes.size ∧ j < (g.attachMove i j).nodes.size ∧ i ≠ j
      ∧ g.precolored i = false ∧ g.precolored j = false ∧ j ∉ g.adjacent i
      ∧ g.addMove a b = (g.attachMove i j).attachMove j i
      ∧ ∀ n m, g.Joined a b n m ↔ n = i ∧ m = j ∨ n = j ∧ m = i := by
  unfold addMove
  cases ha : g.index? a with
  | none => exact .inl ⟨rfl, by simp [Joined, ha]⟩
  | some i =>
    cases hb : g.index? b with
    | none => exact .inl ⟨rfl, by simp [Joined, hb]⟩
    | some j =>
      have hjoined := fun n m => joined_iff_of_index? ha hb (n := n) (m := m)
      by_cases hskip : (i = j || g.precolored i || g.precolored j || (g.adjacent i).contains j)
          = true
      · refine .inl ⟨if_pos hskip, fun n m h => ?_⟩
        obtain ⟨hij, h⟩ := (hjoined n m).mp h
        simp only [Bool.or_eq_true, decide_eq_true_eq, or_assoc, Std.ExtTreeSet.contains_iff_mem,
          hij, false_or] at hskip
        obtain ⟨rfl, rfl⟩ | ⟨rfl, rfl⟩ := h
        · exact hskip.imp_right (Or.imp_right .inl)
        · exact or_left_comm.mp (hskip.imp_right (Or.imp_right .inr))
      · refine .inr ⟨i, j, lt_of_index? ha, ?_, ?_⟩
        · rw [← size_identities, identities_attachMove, size_identities]
          exact lt_of_index? hb
        · have hfree := hskip
          simp only [Bool.or_eq_true, decide_eq_true_eq, not_or,
            Std.ExtTreeSet.contains_iff_mem] at hfree
          obtain ⟨⟨⟨hij, hi⟩, hj⟩, hadj⟩ := hfree
          exact ⟨hij, Bool.eq_false_of_not_eq_true hi, Bool.eq_false_of_not_eq_true hj, hadj,
            if_neg hskip, fun n m => (hjoined n m).trans (and_iff_right hij)⟩

/-- A move edge leaves the edges alone. -/
theorem adjacent_addMove (g : Interference) (a b : Temp) (n : Nat) :
    (g.addMove a b).adjacent n = g.adjacent n := by
  obtain ⟨heq, _⟩ | ⟨i, j, hi, hj, _, _, _, _, heq, _⟩ := addMove_cases g a b
  · rw [heq]
  · rw [heq, adjacent_attachMove _ hj, adjacent_attachMove _ hi]

/-! ## Well-formed graphs -/

/-- **Well-formed** edges: they run both ways between different nodes, and a
move edge joins nodes that neither interfere nor have their colours fixed. -/
structure WellFormed (g : Interference) : Prop where
  adjacent_symm : ∀ {n m : Nat}, m ∈ g.adjacent n → n ∈ g.adjacent m
  adjacent_ne : ∀ {n m : Nat}, m ∈ g.adjacent n → n ≠ m
  adjacent_lt : ∀ {n m : Nat}, m ∈ g.adjacent n → m < g.nodes.size
  moves_symm : ∀ {n m : Nat}, m ∈ g.moves n → n ∈ g.moves m
  moves_ne : ∀ {n m : Nat}, m ∈ g.moves n → n ≠ m
  moves_lt : ∀ {n m : Nat}, m ∈ g.moves n → m < g.nodes.size
  moves_apart : ∀ {n m : Nat}, m ∈ g.moves n → m ∉ g.adjacent n
  moves_precolored : ∀ {n m : Nat}, m ∈ g.moves n → g.precolored m = false

/-- Nodes that are joined are nodes of the graph. -/
theorem Joined.lt {n : Nat} (h : g.Joined a b n m) : m < g.nodes.size := by
  obtain ⟨_, h⟩ | ⟨h, _⟩ := h.2
  · exact lt_of_index? h
  · exact lt_of_index? h

/-- **An edge keeps the graph well formed.** -/
theorem WellFormed.addEdge (h : g.WellFormed) (a b : Temp) : (g.addEdge a b).WellFormed where
  adjacent_symm {n m} hm := by
    rw [mem_adjacent_addEdge] at hm ⊢
    exact hm.imp h.adjacent_symm Joined.symm
  adjacent_ne {n m} hm := by
    rw [mem_adjacent_addEdge] at hm
    exact hm.elim h.adjacent_ne fun hj => hj.1
  adjacent_lt {n m} hm := by
    rw [mem_adjacent_addEdge] at hm
    rw [← size_identities, identities_addEdge, size_identities]
    exact hm.elim h.adjacent_lt Joined.lt
  moves_symm {n m} hm := by
    rw [mem_moves_addEdge] at hm ⊢
    exact ⟨h.moves_symm hm.1, fun hj => hm.2 hj.symm⟩
  moves_ne {n m} hm := by
    rw [mem_moves_addEdge] at hm
    exact h.moves_ne hm.1
  moves_lt {n m} hm := by
    rw [mem_moves_addEdge] at hm
    rw [← size_identities, identities_addEdge, size_identities]
    exact h.moves_lt hm.1
  moves_apart {n m} hm := by
    rw [mem_moves_addEdge] at hm
    rw [mem_adjacent_addEdge]
    exact not_or.mpr ⟨h.moves_apart hm.1, hm.2⟩
  moves_precolored {n m} hm := by
    rw [mem_moves_addEdge] at hm
    rw [precolored_congr (identities_addEdge g a b)]
    exact h.moves_precolored hm.1

/-- Edges between the same nodes stay well-formed if the move edges that are new
join, both ways, two nodes that move edges may join. -/
theorem WellFormed.of_moves {g' : Interference} (h : g.WellFormed) {j : Nat}
    (hidentities : g'.identities = g.identities) (hadjacent : g'.adjacent = g.adjacent)
    (hmoves : ∀ n m, m ∈ g'.moves n ↔ m ∈ g.moves n ∨ n = i ∧ m = j ∨ n = j ∧ m = i)
    (hi : i < g.nodes.size) (hj : j < g.nodes.size) (hij : i ≠ j) (hapart : j ∉ g.adjacent i)
    (hpi : g.precolored i = false) (hpj : g.precolored j = false) : g'.WellFormed := by
  have hsize : g'.nodes.size = g.nodes.size := by
    rw [← size_identities, hidentities, size_identities]
  -- what the old move edges and the new one have, in both directions, all have
  have hall {P : Nat → Nat → Prop} (hold : ∀ {n m}, m ∈ g.moves n → P n m) (hnew : P i j)
      (hback : P j i) {n m : Nat} (hm : m ∈ g'.moves n) : P n m := by
    obtain hm | ⟨rfl, rfl⟩ | ⟨rfl, rfl⟩ := (hmoves n m).mp hm
    · exact hold hm
    · exact hnew
    · exact hback
  exact {
    adjacent_symm := hadjacent ▸ h.adjacent_symm
    adjacent_ne := hadjacent ▸ h.adjacent_ne
    adjacent_lt := hadjacent ▸ hsize ▸ h.adjacent_lt
    moves_symm {n m} hm := by
      rw [hmoves] at hm ⊢
      exact hm.imp h.moves_symm fun hm => hm.symm.imp And.symm And.symm
    moves_ne := hall h.moves_ne hij hij.symm
    moves_lt := hsize ▸ hall h.moves_lt hj hi
    moves_apart := hadjacent ▸ hall h.moves_apart hapart fun hin => hapart (h.adjacent_symm hin)
    moves_precolored {n m} hm := by
      rw [precolored_congr hidentities]
      exact hall (P := fun _ m => g.precolored m = false) h.moves_precolored hpj hpi hm }

/-- **A move keeps the graph well formed.** -/
theorem WellFormed.addMove (h : g.WellFormed) (a b : Temp) : (g.addMove a b).WellFormed := by
  obtain ⟨heq, _⟩ | ⟨i, j, hi, hj, hij, hpi, hpj, hadj, heq, _⟩ := addMove_cases g a b
  · rw [heq]
    exact h
  · have hj' : j < g.nodes.size := by
      rwa [← size_identities, identities_attachMove, size_identities] at hj
    refine h.of_moves (identities_addMove g a b) (funext (adjacent_addMove g a b))
      (fun n m => ?_) hi hj' hij hadj hpi hpj
    rw [heq, moves_attachMove _ hj, moves_attachMove _ hi]
    grind [Std.LawfulEqOrd.compare_eq_iff_eq]

/-! ## The edges of an instruction -/

/-- The pairs of temps kept apart by an instruction that writes `defs`, with
`out` live after it. -/
def defConflicts (out : List Temp) : List Temp → List (Temp × Temp)
  | [] => []
  | d :: rest => (out ++ rest).map (Prod.mk d) ++ defConflicts out rest

/-- What a copy writes and what it reads, if the instruction is a copy. -/
def copied? (i : Instruction) : Option (Temp × Temp) := match i.isCopy, i.defs, i.uses with
  | true, dst :: _, src :: _ => some (dst, src)
  | _, _, _ => none

/-- **The conflicts of an instruction**: the pairs of temps it keeps apart.
What a copy writes may share a register with what it reads. -/
def conflicts (i : Instruction) (out : TempSet) : List (Temp × Temp) := match copied? i with
  | some (dst, src) => (out.toList.filter (· ≠ src)).map (Prod.mk dst)
  | none => defConflicts out.toList i.defs

/-- Add an edge for every pair of a list. -/
def addEdges (g : Interference) (pairs : List (Temp × Temp)) : Interference :=
  pairs.foldl (fun g p => g.addEdge p.1 p.2) g

@[simp] theorem identities_addEdges (g : Interference) (pairs : List (Temp × Temp)) :
    (g.addEdges pairs).identities = g.identities := by
  unfold addEdges
  induction pairs generalizing g with
  | nil => rfl
  | cons p pairs ih => rw [foldl_cons, ih, identities_addEdge]

/-- Neighbours are those from before and those of the pairs. -/
theorem mem_adjacent_addEdges (g : Interference) (pairs : List (Temp × Temp)) (n m : Nat) :
    m ∈ (g.addEdges pairs).adjacent n ↔ m ∈ g.adjacent n ∨ ∃ p ∈ pairs, g.Joined p.1 p.2 n m := by
  unfold addEdges
  induction pairs generalizing g with
  | nil => simp
  | cons p pairs ih =>
    rw [foldl_cons, ih, mem_adjacent_addEdge]
    simp only [joined_congr (identities_addEdge g p.1 p.2), mem_cons, exists_eq_or_imp, or_assoc]

theorem addEdges_map (g : Interference) (d : Temp) (ts : List Temp) :
    g.addEdges (ts.map (Prod.mk d)) = ts.foldl (fun g t => g.addEdge d t) g :=
  foldl_map

/-- The edges of definitions, as one list of pairs. -/
theorem addDefs_eq_addEdges (out : TempSet) (g : Interference) (defs : List Temp) :
    g.addDefs out defs = g.addEdges (defConflicts out.toList defs) := by
  induction defs generalizing g with
  | nil => rfl
  | cons d rest ih =>
    rw [addDefs, ih, ← addEdges_map, defConflicts]
    exact foldl_append.symm

/-- An instruction adds the edges of its conflicts; a copy then adds its move
edge. -/
theorem addInstruction_eq (g : Interference) (i : Instruction) (out : TempSet) :
    g.addInstruction i out = match copied? i with
        | some (dst, src) => (g.addEdges (conflicts i out)).addMove dst src
        | none => g.addEdges (conflicts i out) := by
  unfold addInstruction
  split
  · next dst _ src _ hcopy hdefs huses =>
    have hc : copied? i = some (dst, src) := by
      unfold copied?
      rw [hcopy, hdefs, huses]
    simp only [conflicts, hc]
    rw [addEdges_map]
  · next hno =>
    have hc : copied? i = none := by
      unfold copied?
      split
      · next h₁ h₂ h₃ => exact absurd h₃ (hno _ _ _ _ h₁ h₂)
      · rfl
    simp only [conflicts, hc]
    exact addDefs_eq_addEdges out g i.defs

@[simp] theorem identities_addInstruction (g : Interference) (i : Instruction) (out : TempSet) :
    (g.addInstruction i out).identities = g.identities := by
  rw [addInstruction_eq]
  split
  · rw [identities_addMove, identities_addEdges]
  · exact identities_addEdges _ _

/-- An instruction adds its conflicts, and nothing else. -/
theorem mem_adjacent_addInstruction (g : Interference) (i : Instruction) (out : TempSet)
    (n m : Nat) :
    m ∈ (g.addInstruction i out).adjacent n
      ↔ m ∈ g.adjacent n ∨ ∃ p ∈ conflicts i out, g.Joined p.1 p.2 n m := by
  rw [addInstruction_eq]
  split
  · rw [adjacent_addMove, mem_adjacent_addEdges]
  · exact mem_adjacent_addEdges _ _ n m

/-- So do many edges. -/
theorem WellFormed.addEdges (h : g.WellFormed) (pairs : List (Temp × Temp)) :
    (g.addEdges pairs).WellFormed := by
  induction pairs generalizing g with
  | nil => exact h
  | cons p pairs ih => exact ih (h.addEdge p.1 p.2)

/-- So does an instruction. -/
theorem WellFormed.addInstruction (h : g.WellFormed) (i : Instruction) (out : TempSet) :
    (g.addInstruction i out).WellFormed := by
  rw [addInstruction_eq]
  split
  · exact (h.addEdges _).addMove _ _
  · exact h.addEdges _

/-! ## The nodes -/

/-- What is known of the nodes of a graph that was built for `registers`
registers, whatever edges it has: there is at most one for a temp and none for
the frame pointer, and only temps pinned to one of the registers are coloured. -/
structure Nodes (registers : Nat) (g : Interference) : Prop where
  color_eq : ∀ {i : Nat} {n : InterferenceNode}, g.nodes[i]? = some n →
    n.color = (newNode registers n.temp).color
      ∧ n.precolored = (newNode registers n.temp).precolored
  distinct : ∀ {i j : Nat} {n m : InterferenceNode}, g.nodes[i]? = some n → g.nodes[j]? = some m →
    n.temp = m.temp → i = j
  not_framePointer : ∀ {i : Nat} {n : InterferenceNode}, g.nodes[i]? = some n →
    n.temp.isFramePointer = false

/-- A node is known by its number in any graph with the same nodes. -/
theorem exists_node_congr (h : g.identities = g'.identities) (hn : g.nodes[i]? = some n) :
    ∃ n', g'.nodes[i]? = some n' ∧ n'.temp = n.temp
      ∧ n'.color = n.color ∧ n'.precolored = n.precolored := by
  have hid : g'.identities[i]? = some (n.temp, n.color, n.precolored) := by
    rw [← h]
    unfold identities
    rw [Array.getElem?_map, hn]
    rfl
  unfold identities at hid
  rw [Array.getElem?_map, Option.map_eq_some_iff] at hid
  obtain ⟨n', hn', heq⟩ := hid
  simp only [Prod.mk.injEq] at heq
  exact ⟨n', hn', heq⟩

/-- What nodes there are is told by their identities. -/
theorem Nodes.congr (hg : g'.Nodes registers) (h : g.identities = g'.identities) :
    g.Nodes registers := by
  constructor
  · intro i n hn
    obtain ⟨n', hn', ht, hc, hp⟩ := exists_node_congr h hn
    rw [← ht, ← hc, ← hp]
    exact hg.color_eq hn'
  · intro i j n m hn hm heq
    obtain ⟨n', hn', ht, _⟩ := exists_node_congr h hn
    obtain ⟨m', hm', ht', _⟩ := exists_node_congr h hm
    exact hg.distinct hn' hm' (ht.trans (heq.trans ht'.symm))
  · intro i n hn
    obtain ⟨n', hn', ht, _⟩ := exists_node_congr h hn
    rw [← ht]
    exact hg.not_framePointer hn'

/-- A temp without a node is the temp of no node. -/
theorem index?_eq_none_iff :
    g.index? t = none ↔ ∀ {i : Nat} {n : InterferenceNode}, g.nodes[i]? = some n → n.temp ≠ t := by
  unfold index?
  rw [Array.findIdx?_eq_none_iff]
  constructor
  · intro h i n hn
    simpa using h n (Array.mem_of_getElem? hn)
  · intro h n hn
    obtain ⟨i, hi⟩ := Array.mem_iff_getElem?.mp hn
    simpa using h hi

/-- The node of a temp, by its number. -/
theorem exists_node_of_index? (h : g.index? t = some i) :
    ∃ n, g.nodes[i]? = some n ∧ n.temp = t := by
  obtain ⟨hi, ht, _⟩ := Array.findIdx?_eq_some_iff_getElem.mp h
  exact ⟨g.nodes[i], Array.getElem?_eq_getElem hi, by simpa using ht⟩

@[simp] theorem newNode_temp (registers : Nat) (t : Temp) : (newNode registers t).temp = t := by
  unfold newNode
  split <;> rfl

/-- A node whose colour is fixed is that of a temp pinned to the register of
that colour, one of the registers in use; any other node has no colour. -/
theorem newNode_cases (registers : Nat) (t : Temp) :
    (∃ r, t.pinned? = some r ∧ r.color < registers ∧ (newNode registers t).color = .color r.color
      ∧ (newNode registers t).precolored = true)
    ∨ (newNode registers t).color = .unset ∧ (newNode registers t).precolored = false := by
  unfold newNode
  split
  · next c hc =>
    obtain ⟨hmap, hlt⟩ := Option.filter_eq_some_iff.mp hc
    obtain ⟨r, hr, rfl⟩ := Option.map_eq_some_iff.mp hmap
    exact .inl ⟨r, hr, by simpa using hlt, rfl, rfl⟩
  · exact .inr ⟨rfl, rfl⟩

/-- A node that is missing is added with the colour it must have. -/
theorem Nodes.ensure (h : g.Nodes registers) (t : Temp) :
    (g.ensure registers t).Nodes registers := by
  unfold Interference.ensure
  split
  · exact h
  · next hnew =>
    simp only [Bool.or_eq_true, not_or, Bool.not_eq_true, Option.isSome_eq_false_iff,
      Option.isNone_iff_eq_none] at hnew
    obtain ⟨hfp, hnone⟩ := hnew
    have habsent := fun i n => index?_eq_none_iff.mp hnone (i := i) (n := n)
    constructor
    · intro i n hn
      rw [Array.getElem?_push] at hn
      split at hn
      · cases hn
        rw [newNode_temp]
        exact ⟨rfl, rfl⟩
      · exact h.color_eq hn
    · intro i j n m hn hm heq
      rw [Array.getElem?_push] at hn hm
      split at hn <;> split at hm
      · omega
      · cases hn
        exact absurd (heq.symm.trans (newNode_temp _ _)) (habsent _ _ hm)
      · cases hm
        exact absurd (heq.trans (newNode_temp _ _)) (habsent _ _ hn)
      · exact h.distinct hn hm heq
    · intro i n hn
      rw [Array.getElem?_push] at hn
      split at hn
      · cases hn
        rw [newNode_temp]
        exact hfp
      · exact h.not_framePointer hn

/-- A temp has a node after it was seen to, and every temp keeps its node. -/
theorem isSome_index?_ensure {u : Temp}
    (h : (g.index? t).isSome = true ∨ t = u ∧ t.isFramePointer = false) :
    ((g.ensure registers u).index? t).isSome = true := by
  unfold Interference.ensure
  split
  · next hold =>
    obtain h | ⟨rfl, hfp⟩ := h
    · exact h
    · simpa [hfp] using hold
  · rw [Option.isSome_iff_ne_none, ne_eq, index?_eq_none_iff]
    intro hall
    obtain h | ⟨rfl, _⟩ := h
    · obtain ⟨i, hi⟩ := Option.isSome_iff_exists.mp h
      obtain ⟨n, hn, ht⟩ := exists_node_of_index? hi
      refine hall (i := i) (n := n) ?_ ht
      rw [Array.getElem?_push_lt (lt_of_index? hi)]
      rw [← hn, Array.getElem?_eq_getElem (lt_of_index? hi)]
    · exact hall (i := g.nodes.size) (n := newNode registers t) (by simp) (newNode_temp _ _)

/-- The nodes for some temps, without edges. -/
def skeleton (registers : Nat) (temps : List Temp) : Interference :=
  temps.foldl (Interference.ensure registers) {}

/-- The nodes before any edge. -/
theorem nodes_skeleton (registers : Nat) (temps : List Temp) :
    (skeleton registers temps).Nodes registers := by
  have hfold : ∀ (temps : List Temp) {g : Interference}, g.Nodes registers →
      (temps.foldl (Interference.ensure registers) g).Nodes registers := by
    intro temps
    induction temps with
    | nil => exact fun h => h
    | cons t temps ih => exact fun h => ih (h.ensure t)
  exact hfold temps ⟨by simp, by simp, by simp⟩

/-- Every temp but the frame pointer gets a node. -/
theorem isSome_index?_skeleton (ht : t ∈ temps) (hfp : t.isFramePointer = false) :
    ((skeleton registers temps).index? t).isSome = true := by
  have hfold : ∀ (temps : List Temp) {g : Interference}, (g.index? t).isSome = true ∨ t ∈ temps →
      ((temps.foldl (Interference.ensure registers) g).index? t).isSome = true := by
    intro temps
    induction temps with
    | nil => exact fun h => h.elim id fun h => absurd h not_mem_nil
    | cons u temps ih =>
      intro g h
      refine ih ?_
      obtain h | h := h
      · exact .inl (isSome_index?_ensure (.inl h))
      · obtain rfl | h := mem_cons.mp h
        · exact .inl (isSome_index?_ensure (.inr ⟨rfl, hfp⟩))
        · exact .inr h
  exact hfold temps (.inr ht)

/-- Nothing else does. -/
theorem temp_mem_of_skeleton (hn : (skeleton registers temps).nodes[i]? = some n) :
    n.temp ∈ temps := by
  have hfold : ∀ (temps : List Temp) {g : Interference},
      (temps.foldl (Interference.ensure registers) g).nodes[i]? = some n →
      g.nodes[i]? = some n ∨ n.temp ∈ temps := by
    intro temps
    induction temps with
    | nil => exact fun h => .inl h
    | cons t temps ih =>
      intro g h
      obtain h | h := ih h
      · unfold Interference.ensure at h
        split at h
        · exact .inl h
        · rw [Array.getElem?_push] at h
          split at h
          · cases h
            exact .inr (mem_cons.mpr (.inl (newNode_temp registers t)))
          · exact .inl h
      · exact .inr (mem_cons_of_mem _ h)
  exact (hfold temps hn).resolve_left (by simp)

/-- There are no edges before the first instruction. -/
theorem edgeless_skeleton (registers : Nat) (temps : List Temp) (n : Nat) :
    (skeleton registers temps).adjacent n = ∅ ∧ (skeleton registers temps).moves n = ∅ := by
  have hensure : ∀ {g : Interference} (t : Temp), (∀ n, g.adjacent n = ∅ ∧ g.moves n = ∅) →
      ∀ n, (g.ensure registers t).adjacent n = ∅ ∧ (g.ensure registers t).moves n = ∅ := by
    intro g t h n
    unfold Interference.ensure
    split
    · exact h n
    · have hn := h n
      unfold Interference.adjacent Interference.moves at hn ⊢
      rw [Array.getElem?_push]
      by_cases he : n = g.nodes.size
      · rw [if_pos he]
        dsimp only
        unfold newNode
        split <;> exact ⟨rfl, rfl⟩
      · rw [if_neg he]
        exact hn
  have hfold : ∀ (temps : List Temp) {g : Interference}, (∀ n, g.adjacent n = ∅ ∧ g.moves n = ∅) →
      ∀ n, (temps.foldl (Interference.ensure registers) g).adjacent n = ∅
        ∧ (temps.foldl (Interference.ensure registers) g).moves n = ∅ := by
    intro temps
    induction temps with
    | nil => exact fun h => h
    | cons t temps ih => exact fun h => ih (hensure t h)
  exact hfold temps (fun n => ⟨rfl, rfl⟩) n

/-- A graph without edges is well formed. -/
theorem wellFormed_skeleton (registers : Nat) (temps : List Temp) :
    (skeleton registers temps).WellFormed := by
  have hno : ∀ {n m : Nat}, m ∉ (skeleton registers temps).adjacent n := by
    intro n m
    rw [(edgeless_skeleton registers temps n).1]
    exact not_mem_empty
  have hno' : ∀ {n m : Nat}, m ∉ (skeleton registers temps).moves n := by
    intro n m
    rw [(edgeless_skeleton registers temps n).2]
    exact not_mem_empty
  exact ⟨fun h => absurd h hno, fun h => absurd h hno, fun h => absurd h hno,
    fun h => absurd h hno', fun h => absurd h hno', fun h => absurd h hno',
    fun h => absurd h hno', fun h => absurd h hno'⟩

/-! ## The finished graph -/

section Build

variable (code : List Instruction) (live : Liveness) (registers : Nat)

/-- The temps of code, in the order in which it mentions them. -/
def mentions (code : List Instruction) : List Temp := code.flatMap fun i => i.uses ++ i.defs

/-- What holds of a graph and is kept by every instruction holds of the graph
that all instructions have been added to. -/
theorem foldl_addInstruction_induction {motive : Interference → Prop}
    (step : ∀ g i out, motive g → motive (g.addInstruction i out)) :
    ∀ (entries : List (Instruction × TempSet)) (g : Interference), motive g →
      motive (entries.foldl (fun g entry => g.addInstruction entry.1 entry.2) g) := by
  intro entries
  induction entries with
  | nil => exact fun g h => h
  | cons entry entries ih => exact fun g h => ih _ (step g entry.1 entry.2 h)

/-- Edges and moves change no identity. -/
theorem identities_build :
    (build code live registers).identities = (skeleton registers (mentions code)).identities :=
  foldl_addInstruction_induction
    (fun g i out h => (identities_addInstruction g i out).trans h) _ _ rfl

/-- **The graph of code is well formed.** -/
theorem wellFormed_build : (build code live registers).WellFormed :=
  foldl_addInstruction_induction (fun _ i out h => h.addInstruction i out) _ _
    (wellFormed_skeleton registers (mentions code))

/-- **The graph of code has one node for a temp**, coloured if it is pinned. -/
theorem nodes_build : (build code live registers).Nodes registers :=
  (nodes_skeleton registers (mentions code)).congr (identities_build code live registers)

/-- Every temp of the code but the frame pointer has a node. -/
theorem isSome_index?_build {i : Instruction} (hi : i ∈ code) {t : Temp} (ht : t ∈ i.uses ++ i.defs)
    (hfp : t.isFramePointer = false) : ((build code live registers).index? t).isSome = true := by
  rw [index?_congr (identities_build code live registers)]
  exact isSome_index?_skeleton (mem_flatMap.mpr ⟨i, hi, ht⟩) hfp

/-- Every node is that of a temp of the code. -/
theorem temp_mem_of_build {i : Nat} (hn : (build code live registers).nodes[i]? = some n) :
    n.temp ∈ mentions code := by
  obtain ⟨n', hn', ht, _⟩ := exists_node_congr (identities_build code live registers) hn
  exact ht ▸ temp_mem_of_skeleton hn'

/-- Every instruction adds the edges of its conflicts to those there are. -/
theorem mem_adjacent_foldl (entries : List (Instruction × TempSet)) (g : Interference) (n m : Nat) :
    m ∈ (entries.foldl (fun g entry => g.addInstruction entry.1 entry.2) g).adjacent n
      ↔ m ∈ g.adjacent n ∨ ∃ entry ∈ entries, ∃ p ∈ conflicts entry.1 entry.2,
        g.Joined p.1 p.2 n m := by
  induction entries generalizing g with
  | nil => simp
  | cons entry entries ih =>
    rw [foldl_cons, ih, mem_adjacent_addInstruction]
    simp only [joined_congr (identities_addInstruction g entry.1 entry.2), mem_cons,
      exists_eq_or_imp, or_assoc]

/-- **The edges of the graph** are the conflicts of the instructions. -/
theorem mem_adjacent_build (n m : Nat) : m ∈ (build code live registers).adjacent n
      ↔ ∃ entry ∈ code.zip live.liveOut.toList, ∃ p ∈ conflicts entry.1 entry.2,
        (build code live registers).Joined p.1 p.2 n m := by
  simp only [joined_congr (identities_build code live registers)]
  refine (mem_adjacent_foldl _ (skeleton registers (mentions code)) n m).trans (or_iff_right ?_)
  rw [(edgeless_skeleton registers (mentions code) n).1]
  exact not_mem_empty

end Build

end Interference

end TreeBackend
