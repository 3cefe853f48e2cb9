import TreeBackend.Proofs.RegisterAssignment

/-!
# The graph of conflicts

A graph is built in one pass over the code, and an edge takes the place of a move
edge between the same temps: of one that is there, and of one that a later copy
would add. Yet the order of the instructions leaves a trace in the order of the
nodes only. Which temps are joined depends on what the instructions are, each by
itself, and on what is live after them (`Interference.build_joins_conflicts`).

Two temps **clash** at an instruction that writes one of them while the other is
still needed. They are joined by an edge if they clash anywhere; they are joined by a
move edge if they are copied somewhere, clash nowhere, and neither has its colour
fixed.
-/

namespace TreeBackend

open List Std.ExtTreeSet

namespace Interference

variable {g : Interference}

/-! ## Clashes and copies -/

/-- With one register for both temps, the instruction **overwrites** `b` as it writes
`a`: `b` is live after it, or is written by it as well. Of a copy only the first temp
that it writes counts, and what it reads there may share that temp's register. -/
def Overwrites (i : Instruction) (out : TempSet) (a b : Temp) : Prop := match copied? i with
  | some (dst, src) => a = dst ∧ b ∈ out ∧ b ≠ src
  | none => a ∈ i.defs ∧ (b ∈ out ∨ b ∈ i.defs)

/-- Two temps **clash** at an instruction: it overwrites one of them as it writes the
other. -/
def Clash (i : Instruction) (out : TempSet) (a b : Temp) : Prop :=
  Overwrites i out a b ∨ Overwrites i out b a

/-- The instruction **copies** one of two temps to the other. -/
def Copies (i : Instruction) (a b : Temp) : Prop :=
  copied? i = some (a, b) ∨ copied? i = some (b, a)

variable {a b t : Temp}

/-- The temps that clash are those that an instruction keeps apart. -/
theorem clash_iff {i : Instruction} {out : TempSet} (hne : a ≠ b) :
    Clash i out a b ↔ (a, b) ∈ conflicts i out ∨ (b, a) ∈ conflicts i out := by
  unfold Clash Overwrites conflicts
  cases copied? i with
  | some copy =>
    obtain ⟨dst, src⟩ := copy
    have hcopy : ∀ {x y : Temp}, x = dst ∧ y ∈ out ∧ y ≠ src ↔
        (x, y) ∈ (out.toList.filter (· ≠ src)).map (Prod.mk dst) := by
      intro x y
      simp only [mem_map, mem_filter, mem_toList, Prod.mk.injEq, decide_eq_true_eq]
      grind
    exact or_congr hcopy hcopy
  | none =>
    constructor
    · rintro (⟨ha, hb | hb⟩ | ⟨hb, ha | ha⟩)
      · exact .inl (mem_defConflicts ha (mem_toList.mpr hb))
      · exact mem_defConflicts_of_defs _ ha hb hne
      · exact .inr (mem_defConflicts hb (mem_toList.mpr ha))
      · exact mem_defConflicts_of_defs _ ha hb hne
    · have hout : ∀ {x y : Temp}, (x, y) ∈ defConflicts out.toList i.defs →
          x ∈ i.defs ∧ (y ∈ out ∨ y ∈ i.defs) := fun h =>
        (of_mem_defConflicts h).imp_right (Or.imp_left mem_toList.mp)
      exact Or.imp hout hout

/-! ## The order of the nodes -/

theorem isSome_node? : (g.node? t).isSome = (g.index? t).isSome := by
  unfold node?
  cases h : g.index? t with
  | none => rfl
  | some i =>
    obtain ⟨n, hn, -⟩ := exists_node_of_index? h
    rw [Option.bind_some, hn]
    rfl

theorem isSome_index?_iff : (g.index? t).isSome = true ↔ t ∈ g.nodes.toList.map (·.temp) := by
  rw [index?, Array.findIdx?_isSome, Array.any_eq_true', mem_map]
  simp

/-- **Nodes stand in the order of first mention**, one for each temp but the frame
pointer. -/
theorem temps_skeleton (registers : Nat) (temps : List Temp) :
    (skeleton registers temps).nodes.toList.map (·.temp) =
      (temps.filter fun t => !t.isFramePointer).eraseDups := by
  induction temps using List.reverseRecOn with
  | nil => rfl
  | append_singleton temps t ih =>
    have hknown : ((skeleton registers temps).index? t).isSome = true ↔
        t ∈ temps.filter fun t => !t.isFramePointer := by
      rw [isSome_index?_iff, ih, mem_eraseDups]
    rw [show skeleton registers (temps ++ [t]) =
      (skeleton registers temps).ensure registers t from foldl_concat ..,
      filter_append, eraseDups_append, ← ih]
    generalize temps.filter (fun t => !t.isFramePointer) = seen at hknown
    unfold ensure
    cases hfp : t.isFramePointer with
    | true => simp [hfp]
    | false =>
      rw [Bool.false_or, filter_cons_of_pos (by rw [hfp]; rfl), filter_nil, List.removeAll]
      by_cases hold : t ∈ seen
      · rw [if_pos (hknown.mpr hold), filter_cons_of_neg (by simpa using hold)]
        simp
      · rw [if_neg (hold ∘ hknown.mp), filter_cons_of_pos (by simpa using hold)]
        simp [eraseDups_cons]

/-! ## Move edges -/

theorem mem_moves_addEdges (g : Interference) (pairs : List (Temp × Temp)) (n m : Nat) :
    m ∈ (g.addEdges pairs).moves n ↔ m ∈ g.moves n ∧ ¬ ∃ p ∈ pairs, g.Joined p.1 p.2 n m := by
  unfold addEdges
  induction pairs generalizing g with
  | nil => simp
  | cons p pairs ih =>
    rw [foldl_cons, ih, mem_moves_addEdge]
    simp only [joined_congr (identities_addEdge g p.1 p.2), mem_cons, exists_eq_or_imp, not_or,
      and_assoc]

/-- The nodes at `n` and `m` **may be related** by a move: neither has its colour
fixed. -/
def MayRelate (g : Interference) (n m : Nat) : Prop :=
  g.precolored n = false ∧ g.precolored m = false

theorem mayRelate_congr {g' : Interference} (h : g.identities = g'.identities) (n m : Nat) :
    g.MayRelate n m ↔ g'.MayRelate n m := by
  unfold MayRelate
  rw [precolored_congr h, precolored_congr h]

/-- A move edge is added unless there is an edge, or a fixed colour. -/
theorem WellFormed.mem_moves_addMove (h : g.WellFormed) (a b : Temp) (n m : Nat) :
    m ∈ (g.addMove a b).moves n
      ↔ m ∈ g.moves n ∨ (g.Joined a b n m ∧ g.MayRelate n m) ∧ m ∉ g.adjacent n := by
  obtain ⟨heq, hno⟩ | ⟨i, j, hi, hj, hij, hpi, hpj, hadj, heq, hjoin⟩ := addMove_cases g a b
  · rw [heq, or_iff_left]
    rintro ⟨⟨hjoined, hn, hm⟩, hapart⟩
    obtain hpre | hpre | hmem | hmem := hno n m hjoined
    · cases hn.symm.trans hpre
    · cases hm.symm.trans hpre
    · exact hapart hmem
    · exact hapart (h.adjacent_symm hmem)
  · rw [heq, moves_attachMove _ hj, moves_attachMove _ hi, hjoin]
    have hadj' : i ∉ g.adjacent j := fun hmem => hadj (h.adjacent_symm hmem)
    unfold MayRelate
    grind [Std.LawfulEqOrd.compare_eq_iff_eq]

/-- **One instruction more.** A move edge was there or is that of the copy, and there is
no edge after the instruction. -/
theorem WellFormed.mem_moves_addInstruction (h : g.WellFormed) (i : Instruction) (out : TempSet)
    (n m : Nat) :
    m ∈ (g.addInstruction i out).moves n
      ↔ (m ∈ g.moves n ∨ (∃ copy, copied? i = some copy ∧ g.Joined copy.1 copy.2 n m)
          ∧ g.MayRelate n m) ∧ m ∉ (g.addInstruction i out).adjacent n := by
  have hkept : m ∈ (g.addEdges (conflicts i out)).moves n
      ↔ m ∈ g.moves n ∧ m ∉ (g.addEdges (conflicts i out)).adjacent n := by
    rw [mem_moves_addEdges, mem_adjacent_addEdges, not_or]
    exact and_congr_right fun hm => (and_iff_right (h.moves_apart hm)).symm
  rw [addInstruction_eq]
  cases copied? i with
  | none => simpa using hkept
  | some copy =>
    obtain ⟨dst, src⟩ := copy
    rw [(h.addEdges _).mem_moves_addMove, adjacent_addMove, hkept,
      joined_congr (identities_addEdges g _), mayRelate_congr (identities_addEdges g _)]
    simp only [Option.some.injEq, exists_eq_left']
    rw [or_and_right]

/-- So it is after all instructions. -/
theorem WellFormed.mem_moves_foldl (h : g.WellFormed) (entries : List (Instruction × TempSet))
    (n m : Nat) :
    m ∈ (entries.foldl (fun g entry => g.addInstruction entry.1 entry.2) g).moves n
      ↔ (m ∈ g.moves n ∨ (∃ entry ∈ entries, ∃ copy, copied? entry.1 = some copy
          ∧ g.Joined copy.1 copy.2 n m) ∧ g.MayRelate n m)
        ∧ m ∉ (entries.foldl (fun g entry => g.addInstruction entry.1 entry.2) g).adjacent n := by
  induction entries generalizing g with
  | nil => simpa using h.moves_apart
  | cons entry entries ih =>
    have hidentities := identities_addInstruction g entry.1 entry.2
    rw [foldl_cons, ih (h.addInstruction entry.1 entry.2), h.mem_moves_addInstruction]
    simp only [joined_congr hidentities, mayRelate_congr hidentities, mem_cons, exists_eq_or_imp]
    -- an edge of the first instruction is there to the end
    have hstays := (mem_adjacent_foldl entries (g.addInstruction entry.1 entry.2) n m).mpr ∘ .inl
    grind

/-- **The move edges of the graph** are those of the copies, wherever they may be. -/
theorem mem_moves_build (code : List Instruction) (live : Liveness) (registers n m : Nat) :
    m ∈ (build code live registers).moves n
      ↔ (∃ entry ∈ code.zip live.liveOut.toList, ∃ copy, copied? entry.1 = some copy
          ∧ (build code live registers).Joined copy.1 copy.2 n m)
        ∧ (build code live registers).MayRelate n m
        ∧ m ∉ (build code live registers).adjacent n := by
  simp only [joined_congr (identities_build code live registers),
    mayRelate_congr (identities_build code live registers), ← and_assoc]
  refine ((wellFormed_skeleton registers (mentions code)).mem_moves_foldl _ n m).trans
    (and_congr_left fun _ => or_iff_right ?_)
  rw [(edgeless_skeleton registers (mentions code) n).2]
  exact not_mem_empty

/-! ## From nodes to temps -/

theorem eq_of_index? {n : Nat} (ha : g.index? a = some n) (hb : g.index? b = some n) : a = b := by
  obtain ⟨x, hx, rfl⟩ := exists_node_of_index? ha
  obtain ⟨y, hy, rfl⟩ := exists_node_of_index? hb
  exact congrArg _ (Option.some.inj (hx.symm.trans hy))

/-- The nodes of `a` and `b` are joined by what is said of these two temps. -/
theorem joined_iff_of_temps {n m : Nat} (ha : g.index? a = some n) (hb : g.index? b = some m)
    {x y : Temp} : g.Joined x y n m ↔ a ≠ b ∧ (x = a ∧ y = b ∨ x = b ∧ y = a) := by
  have hnm : n ≠ m ↔ a ≠ b := not_congr
    ⟨fun h => eq_of_index? ha (h ▸ hb), fun h => Option.some.inj (ha.symm.trans (h ▸ hb))⟩
  have hx : ∀ {t u : Temp} {i : Nat}, g.index? u = some i → (g.index? t = some i ↔ t = u) :=
    fun hu => ⟨fun ht => eq_of_index? ht hu, fun h => h ▸ hu⟩
  unfold Joined
  rw [hnm, hx ha, hx hb, hx hb, hx ha]

/-- The temp has a node, and its colour is not fixed. -/
def Free (g : Interference) (t : Temp) : Prop := ∃ n, g.node? t = some n ∧ n.precolored = false

theorem Free.exists_index? (h : g.Free t) : ∃ i, g.index? t = some i := by
  obtain ⟨n, hn, -⟩ := h
  obtain ⟨i, hi, -⟩ := Option.bind_eq_some_iff.mp hn
  exact ⟨i, hi⟩

theorem free_iff {i : Nat} (h : g.index? t = some i) : g.Free t ↔ g.precolored i = false := by
  obtain ⟨n, hn, -⟩ := exists_node_of_index? h
  unfold Free node? precolored
  rw [h, Option.bind_some, hn]
  simp

theorem interferes_iff : g.interferes a b = true ↔
    ∃ n m, g.index? a = some n ∧ g.index? b = some m ∧ m ∈ g.adjacent n := by
  unfold interferes
  cases g.index? a <;> cases g.index? b <;> simp

theorem moveRelated_iff : g.moveRelated a b = true ↔
    ∃ n m, g.index? a = some n ∧ g.index? b = some m ∧ m ∈ g.moves n := by
  unfold moveRelated
  cases g.index? a <;> cases g.index? b <;> simp

section Build

variable (code : List Instruction) (live : Liveness) (registers : Nat)

theorem temps_build : (build code live registers).nodes.toList.map (·.temp) =
    ((mentions code).filter fun t => !t.isFramePointer).eraseDups := by
  have htemps : ∀ g : Interference,
      g.nodes.toList.map (·.temp) = g.identities.toList.map Prod.fst := fun g => by
    simp [identities]
  rw [htemps, identities_build, ← htemps, temps_skeleton]

variable {code live registers} {a b : Temp} {n m : Nat}

/-- An edge between the nodes of two temps is a clash of the temps. -/
theorem mem_adjacent_build_iff (ha : (build code live registers).index? a = some n)
    (hb : (build code live registers).index? b = some m) :
    m ∈ (build code live registers).adjacent n ↔
      a ≠ b ∧ ∃ entry ∈ code.zip live.liveOut.toList, Clash entry.1 entry.2 a b := by
  rw [mem_adjacent_build]
  simp only [joined_iff_of_temps ha hb]
  constructor
  · rintro ⟨entry, hentry, ⟨x, y⟩, hp, hne, ⟨rfl, rfl⟩ | ⟨rfl, rfl⟩⟩
    · exact ⟨hne, entry, hentry, (clash_iff hne).mpr (.inl hp)⟩
    · exact ⟨hne, entry, hentry, (clash_iff hne).mpr (.inr hp)⟩
  · rintro ⟨hne, entry, hentry, hclash⟩
    obtain hp | hp := (clash_iff hne).mp hclash
    · exact ⟨entry, hentry, _, hp, hne, .inl ⟨rfl, rfl⟩⟩
    · exact ⟨entry, hentry, _, hp, hne, .inr ⟨rfl, rfl⟩⟩

/-- A move edge between them is a copy that is free of clashes. -/
theorem mem_moves_build_iff (ha : (build code live registers).index? a = some n)
    (hb : (build code live registers).index? b = some m) :
    m ∈ (build code live registers).moves n ↔ a ≠ b ∧
      ((build code live registers).Free a ∧ (build code live registers).Free b) ∧
      (∃ entry ∈ code.zip live.liveOut.toList, Copies entry.1 a b) ∧
      ¬ ∃ entry ∈ code.zip live.liveOut.toList, Clash entry.1 entry.2 a b := by
  rw [mem_moves_build, mem_adjacent_build_iff ha hb, free_iff ha, free_iff hb, MayRelate]
  simp only [joined_iff_of_temps ha hb, Copies]
  constructor
  · rintro ⟨⟨entry, hentry, ⟨x, y⟩, hcopy, hne, hxy⟩, hfree, hclash⟩
    refine ⟨hne, hfree, ⟨entry, hentry, ?_⟩, fun h => hclash ⟨hne, h⟩⟩
    obtain ⟨rfl, rfl⟩ | ⟨rfl, rfl⟩ := hxy
    · exact .inl hcopy
    · exact .inr hcopy
  · rintro ⟨hne, hfree, ⟨entry, hentry, hcopy | hcopy⟩, hclash⟩
    · exact ⟨⟨entry, hentry, _, hcopy, hne, .inl ⟨rfl, rfl⟩⟩, hfree, fun h => hclash h.2⟩
    · exact ⟨⟨entry, hentry, _, hcopy, hne, .inr ⟨rfl, rfl⟩⟩, hfree, fun h => hclash h.2⟩

end Build

/-- **The graph of conflicts.** Its nodes are the temps of the code but for the frame
pointer, in the order in which they are mentioned first. Two different temps with a
node are joined by an edge if and only if they clash at an instruction. They are joined
by a move edge if and only if an instruction copies one to the other, neither has its
colour fixed, and they clash at no instruction. Both kinds of edges run both ways, and
never from a node to itself. -/
theorem build_joins_conflicts (code : List Instruction) (live : Liveness) (registers : Nat) :
    let g := build code live registers
    let entries := code.zip live.liveOut.toList
    g.nodes.toList.map (·.temp) = ((mentions code).filter fun t => !t.isFramePointer).eraseDups ∧
    (∀ a b, g.interferes a b = true ↔ a ≠ b ∧ ((g.node? a).isSome ∧ (g.node? b).isSome) ∧
      ∃ entry ∈ entries, Clash entry.1 entry.2 a b) ∧
    (∀ a b, g.moveRelated a b = true ↔ a ≠ b ∧ (g.Free a ∧ g.Free b) ∧
      (∃ entry ∈ entries, Copies entry.1 a b) ∧ ¬ ∃ entry ∈ entries, Clash entry.1 entry.2 a b) ∧
    (∀ n m, m ∈ g.adjacent n → n ≠ m ∧ n ∈ g.adjacent m) ∧
    ∀ n m, m ∈ g.moves n → n ≠ m ∧ n ∈ g.moves m := by
  have hg := wellFormed_build code live registers
  refine ⟨temps_build code live registers, fun a b => ?_, fun a b => ?_,
    fun n m hm => ⟨hg.adjacent_ne hm, hg.adjacent_symm hm⟩,
    fun n m hm => ⟨hg.moves_ne hm, hg.moves_symm hm⟩⟩
  · rw [interferes_iff, isSome_node?, isSome_node?, Option.isSome_iff_exists,
      Option.isSome_iff_exists]
    constructor
    · rintro ⟨n, m, ha, hb, hmem⟩
      obtain ⟨hne, hclash⟩ := (mem_adjacent_build_iff ha hb).mp hmem
      exact ⟨hne, ⟨⟨n, ha⟩, m, hb⟩, hclash⟩
    · rintro ⟨hne, ⟨⟨n, ha⟩, m, hb⟩, hclash⟩
      exact ⟨n, m, ha, hb, (mem_adjacent_build_iff ha hb).mpr ⟨hne, hclash⟩⟩
  · rw [moveRelated_iff]
    constructor
    · rintro ⟨n, m, ha, hb, hmem⟩
      exact (mem_moves_build_iff ha hb).mp hmem
    · intro h
      obtain ⟨n, ha⟩ := h.2.1.1.exists_index?
      obtain ⟨m, hb⟩ := h.2.1.2.exists_index?
      exact ⟨n, m, ha, hb, (mem_moves_build_iff ha hb).mpr h⟩

end Interference

end TreeBackend
