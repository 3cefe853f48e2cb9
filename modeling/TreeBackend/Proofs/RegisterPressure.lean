import Mathlib.Data.Fintype.Card
import TreeBackend.Proofs.AllocationReports
import TreeBackend.Proofs.CompiledPrograms
import TreeBackend.Proofs.FrozenMoves
import TreeBackend.Proofs.SpillRuns

/-!
# When registers are enough

Whether temps get by with the registers there are is decided by their conflicts.
Temps that one instruction writes are in conflict with one another, so each needs
a register of its own (`Interference.length_defs_le`), and spilling does not help:
the instruction that enters a method writes as many temps after spilling as before
(`Allocation.Rounds.entersWith`). On the other hand, where nothing is copied and every
temp is in conflict with fewer temps than there are registers, each of them finds a
register (`Interference.spilled_eq_nil_of_few`).
-/

namespace TreeBackend

open List Std.ExtTreeSet

/-! ## Temps that need a register each -/

namespace Interference

variable {code : List Instruction} {live : Liveness} {k : Nat} {avoid : TempSet}

/-- **Temps written together** have a register each, if all temps have one. -/
theorem length_defs_le {s : Session} (howned : ∀ i ∈ code, i.OwnedBy s)
    (hlive : live.Describes code)
    (hspilled : ((build code live k).colorAvoiding k avoid).1.spilled = []) {index : Nat}
    {i : Instruction} (hi : code[index]? = some i) (hcopy : i.isCopy = false)
    (hnodup : i.defs.Nodup) (hfp : ∀ t ∈ i.defs, t.isFramePointer = false) : i.defs.length ≤ k := by
  let home := ((build code live k).colorAvoiding k avoid).1.home k
  have hmem := mem_of_getElem? hi
  have hregister : ∀ t ∈ i.defs, ∃ c, home t = .register c := by
    intro t ht
    obtain ⟨_, c, hc, -, -, hhome⟩ :=
      home?_eq_register hspilled hmem (mem_append_right _ ht) (hfp t ht)
    exact ⟨⟨c, hc⟩, Coloring.home_eq_of_home? hhome⟩
  have hconflicts :
      conflicts i (live.after index) = defConflicts (live.after index).toList i.defs := by
    unfold conflicts copied?
    rw [hcopy]
  have hinjective : ∀ x ∈ i.defs, ∀ y ∈ i.defs, home x = home y → x = y := by
    intro x hx y hy heq
    by_contra hne
    have hsep := separates_home howned hlive hspilled hi
    rw [hconflicts] at hsep
    obtain h | h := mem_defConflicts_of_defs (live.after index).toList hx hy hne
    · exact hsep _ h hne heq
    · exact hsep _ h (Ne.symm hne) heq.symm
  have hnodup' : (i.defs.map home).Nodup := (nodup_map_iff_inj_on hnodup).mpr hinjective
  calc i.defs.length = (i.defs.map home).toFinset.card := by
        rw [toFinset_card_of_nodup hnodup', length_map]
    _ ≤ ((Finset.univ : Finset (Fin k)).image Home.register).card := by
        refine Finset.card_le_card fun h hh => ?_
        obtain ⟨t, ht, rfl⟩ := mem_map.mp (mem_toFinset.mp hh)
        obtain ⟨c, hc⟩ := hregister t ht
        exact Finset.mem_image.mpr ⟨c, Finset.mem_univ c, hc.symm⟩
    _ ≤ (Finset.univ : Finset (Fin k)).card := Finset.card_image_le
    _ = k := Finset.card_fin k

end Interference

namespace Allocation

/-- The code enters a method with a number of different temps, none of them the frame
pointer. -/
def EntersWith (count : Nat) (code : List Instruction) : Prop :=
  ∃ entry rest, code = .enter entry :: rest ∧ entry.Nodup ∧ entry.length = count ∧
    ∀ t ∈ entry, t.isFramePointer = false

variable {registers bound bound' count : Nat} {p q : Progress} {s u : Session}

/-- Spilling keeps the number of temps that a method is entered with. -/
theorem EntersWith.spill {slots : TempMap Int64} {code : List Instruction}
    {routes : List (List SpillCode.Detour)} (h : EntersWith count code)
    (howned : ∀ i ∈ code, i.OwnedBy s)
    (hroutes : List.Forall₂ (SpillCode.Detours slots s) code routes)
    (hfresh : ∀ d ∈ routes.flatten, u.Owns d.fresh) :
    EntersWith count (SpillCode.pieces code routes).flatten := by
  obtain ⟨entry, rest, rfl, hnodup, hcount, hfp⟩ := h
  cases hroutes with
  | @cons _ ds _ routes hds _ =>
    have howns : ∀ t ∈ entry, s.Owns t := fun t ht =>
      howned _ mem_cons_self t (mem_append_right _ ht)
    refine ⟨_, _, SpillCode.flatten_pieces_enter entry rest ds routes, ?_, ?_, ?_⟩
    · exact (nodup_map_iff_inj_on hnodup).mpr fun x hx y hy heq =>
        hds.reroute_inj (howns x hx) (howns y hy) heq
    · rw [length_map, hcount]
    · refine forall_mem_map.mpr fun t ht => ?_
      obtain ⟨heq, -⟩ | ⟨d, hd, -, heq⟩ := SpillCode.reroute_cases ds t
      · rw [heq]
        exact hfp t ht
      · rw [heq, Bool.eq_false_iff]
        intro hfresh_fp
        refine hds.not_owned d hd ?_
        rw [(hfresh d (mem_flatten.mpr ⟨ds, mem_cons_self, hd⟩)).eq_framePointer hfresh_fp]
        rfl

/-- **Rounds of spilling** keep it, however many there are. -/
theorem Rounds.entersWith (h : Rounds registers bound p s bound' q u)
    (hp : EntersWith count p.instructions) (howned : ∀ i ∈ p.instructions, i.OwnedBy s) :
    EntersWith count q.instructions ∧ ∀ i ∈ q.instructions, i.OwnedBy u :=
  h.keepsCode (fun h howned hroutes hfresh => h.spill howned hroutes hfresh) hp howned

/-- **Allocation needs a register for every temp that a method is entered with.** -/
theorem le_registers_of_attempt {round : Round} (hp : EntersWith count p.instructions)
    (howned : ∀ i ∈ p.instructions, i.OwnedBy s)
    (hround : Yields (attempt p registers) s round u) (hspilled : round.coloring.spilled = []) :
    count ≤ registers := by
  obtain ⟨entry, rest, hcode, hnodup, hcount, hfp⟩ := hp
  obtain ⟨live, v, hlive, -⟩ := yields_bind.mp hround
  obtain ⟨flow, hflow, hliveness, hcolor, -⟩ := of_attempt hround
  have hdescribes : round.liveness.Describes p.instructions := by
    obtain ⟨flow', hflow', hsolve⟩ := Liveness.eq_solve_of_analyze hlive
    obtain rfl := Except.ok.inj (hflow.symm.trans hflow')
    rw [hliveness, ← hsolve]
    exact Liveness.describes_of_analyze hlive
  rw [(Prod.mk.inj hcolor).1] at hspilled
  have hfirst : p.instructions[0]? = some (.enter entry) := by rw [hcode]; rfl
  rw [← hcount]
  exact Interference.length_defs_le howned hdescribes hspilled hfirst rfl hnodup hfp

end Allocation

/-! ## Code that goes straight on -/

namespace Liveness

variable {code : List Instruction} {flow : List FlowNode} {t : Temp}

/-- The temp is **read later** than before a place in code: an instruction from there on
reads it, and none before that one writes it. -/
def ReadLater (code : List Instruction) (t : Temp) (n : Nat) : Prop :=
  ∃ index i, n ≤ index ∧ code[index]? = some i ∧ t ∈ i.uses ∧
    ∀ k j, n ≤ k → k < index → code[k]? = some j → t ∉ j.defs

/-- In code without targets, what is read ahead is read later. -/
theorem ReadAhead.readLater (hd : Flow.Describes code flow) (hstraight : ∀ i ∈ code, i.targets = [])
    {n : Nat} (h : ReadAhead flow.toArray t n) : ReadLater code t n := by
  have hinstruction {n : Nat} {node : FlowNode} (hn : flow.toArray[n]? = some node) :
      ∃ i, code[n]? = some i ∧ node.uses = TempSet.ofList i.uses ∧
        node.defs = TempSet.ofList i.defs ∧ Flow.successors code i n = .ok node.succ := by
    rw [List.getElem?_toArray] at hn
    have hlt : n < code.length := hd.length_eq ▸ (List.getElem?_eq_some_iff.mp hn).1
    obtain ⟨node', hnode, h⟩ := hd.node (List.getElem?_eq_getElem hlt)
    obtain rfl := Option.some.inj (hn.symm.trans hnode)
    exact ⟨_, List.getElem?_eq_getElem hlt, h⟩
  induction h with
  | @read n node hn ht =>
    obtain ⟨i, hi, huses, -⟩ := hinstruction hn
    rw [huses, TempSet.mem_ofList] at ht
    exact ⟨n, i, Nat.le_refl n, hi, ht, fun k _ hle hlt => absurd hle (Nat.not_le_of_lt hlt)⟩
  | @pass n m node hn ht hs _ ih =>
    obtain ⟨i, hi, -, hdefs, hsucc⟩ := hinstruction hn
    rw [hdefs, TempSet.mem_ofList] at ht
    obtain ⟨-, rfl, -⟩ | ⟨l, hl, -⟩ := (Flow.mem_successors hsucc m).mp hs
    · obtain ⟨index, j, hle, hj, hread, hfree⟩ := ih
      refine ⟨index, j, by omega, hj, hread, fun k j' hk hlt hj' => ?_⟩
      obtain rfl | hk := hk.eq_or_lt
      · obtain rfl := Option.some.inj (hi.symm.trans hj')
        exact ht
      · exact hfree k j' hk hlt hj'
    · rw [hstraight i (mem_of_getElem? hi)] at hl
      cases hl

/-- **In code without targets** only what is read later is live. -/
theorem readLater_of_mem_after (hflow : Flow.ofCode code = .ok flow)
    (hstraight : ∀ i ∈ code, i.targets = []) {n : Nat} (ht : t ∈ (solve flow.toArray).after n) :
    ReadLater code t (n + 1) := by
  have hd := Flow.describes_of_ofCode hflow
  obtain ⟨hpending, heq⟩ := pending_solve (linked_of_describes hd)
  obtain ⟨node, hn⟩ := hpending.flow_of_mem_after ht
  obtain ⟨m, hm, htm⟩ := (hpending.solves.after_iff hn t).mp ht
  rw [heq, List.getElem?_toArray] at hn
  have hlt : n < code.length := hd.length_eq ▸ (List.getElem?_eq_some_iff.mp hn).1
  obtain ⟨node', hnode, -, -, hsucc⟩ := hd.node (List.getElem?_eq_getElem hlt)
  obtain rfl := Option.some.inj (hn.symm.trans hnode)
  obtain ⟨-, rfl, -⟩ | ⟨l, hl, -⟩ := (Flow.mem_successors hsucc m).mp hm
  · exact (readAhead_of_mem_before hflow htm).readLater hd hstraight
  · rw [hstraight _ (getElem_mem hlt)] at hl
    cases hl

end Liveness

/-! ## Temps with few conflicts -/

namespace Interference

variable {g : Interference} {registers : Nat} {avoid : TempSet}

/-- **Nodes with few neighbours find a colour**, if there is no move edge. -/
theorem spilled_eq_nil_of_no_moves (hg : g.WellFormed) (hnodes : g.Nodes registers)
    (hregisters : registers ≤ 64) (hfree : ∀ n, g.moves n = ∅)
    (hfew : ∀ n < g.nodes.size, (g.adjacent n).size < registers) :
    (g.colorAvoiding registers avoid).1.spilled = [] := by
  refine spilled_eq_nil_of_forall_notMem hnodes hg avoid hregisters
    (Reduction.spill_notMem_exhaust hg avoid fun n hn _ => ?_)
  -- a node that is not copied is a group of its own
  refine ⟨insert n (g.adjacent n).toList.toFinset, {n},
    ⟨fun x _ y hy => ?_, ?_, fun x hx y hy => ?_⟩, Finset.mem_singleton_self n, ?_⟩
  · rw [hfree x] at hy
    exact absurd hy not_mem_empty
  · exact Finset.singleton_subset_iff.mpr (Finset.mem_insert_self n _)
  · obtain rfl := Finset.mem_singleton.mp hx
    exact Finset.mem_insert_of_mem (mem_toFinset.mpr (mem_toList.mpr hy))
  · calc (insert n (g.adjacent n).toList.toFinset).card
        ≤ (g.adjacent n).toList.toFinset.card + 1 := Finset.card_insert_le _ _
      _ ≤ (g.adjacent n).toList.length + 1 := Nat.add_le_add_right (toFinset_card_le _) 1
      _ = (g.adjacent n).size + 1 := by rw [length_toList]
      _ ≤ registers := hfew n hn

section Code

variable {code : List Instruction} {live : Liveness}

/-- Code without copies has no move edges. -/
theorem moves_build_of_no_copies (hcopies : ∀ i ∈ code, i.isCopy = false) (n : Nat) :
    (build code live registers).moves n = ∅ := by
  have hedges : ∀ (pairs : List (Temp × Temp)) {g : Interference}, (∀ n, g.moves n = ∅) →
      ∀ n, (g.addEdges pairs).moves n = ∅ := by
    intro pairs
    induction pairs with
    | nil => exact fun h => h
    | cons p pairs ih =>
      refine fun {g} h => ih fun n => ext_mem fun m => ?_
      rw [mem_moves_addEdge, h n]
      simp
  have hfold : ∀ (entries : List (Instruction × TempSet)) {g : Interference},
      (∀ entry ∈ entries, entry.1.isCopy = false) → (∀ n, g.moves n = ∅) →
      ∀ n, (entries.foldl (fun g entry => g.addInstruction entry.1 entry.2) g).moves n = ∅ := by
    intro entries
    induction entries with
    | nil => exact fun _ h => h
    | cons entry entries ih =>
      intro g hentries h
      rw [forall_mem_cons] at hentries
      refine ih hentries.2 ?_
      have hcopied : copied? entry.1 = none := by
        unfold copied?
        rw [hentries.1]
      dsimp only
      rw [addInstruction_eq, hcopied]
      exact hedges _ h
  exact hfold _ (fun entry hentry => hcopies _ (of_mem_zip hentry).1)
    (fun n => (edgeless_skeleton registers (mentions code) n).2) n

/-- Two temps that an instruction of the code keeps apart. -/
def InConflict (code : List Instruction) (live : Liveness) (t u : Temp) : Prop :=
  ∃ index i, code[index]? = some i ∧
    ((t, u) ∈ conflicts i (live.after index) ∨ (u, t) ∈ conflicts i (live.after index))

/-- Nodes that are joined are those of temps in conflict. -/
theorem inConflict_of_mem_adjacent {n m : Nat} (h : m ∈ (build code live registers).adjacent n) :
    ∃ t u, (build code live registers).index? t = some n ∧
      (build code live registers).index? u = some m ∧ n ≠ m ∧ InConflict code live t u := by
  obtain ⟨⟨i, out⟩, hentry, ⟨t, u⟩, hp, hne, hjoined⟩ := (mem_adjacent_build ..).mp h
  obtain ⟨index, hindex⟩ := mem_iff_getElem?.mp hentry
  obtain ⟨hi, hout⟩ := List.getElem?_zip_eq_some.mp hindex
  rw [Array.getElem?_toList] at hout
  have hafter : live.after index = out := by
    rw [Liveness.after, Array.getD_eq_getD_getElem?, hout]
    rfl
  rw [← hafter] at hp
  obtain ⟨ht, hu⟩ | ⟨ht, hu⟩ := hjoined
  · exact ⟨t, u, ht, hu, hne, index, i, hi, .inl hp⟩
  · exact ⟨u, t, hu, ht, hne, index, i, hi, .inr hp⟩

/-- **Temps with few conflicts find a register**, if nothing is copied. -/
theorem spilled_eq_nil_of_few (hcopies : ∀ i ∈ code, i.isCopy = false) (hregisters : registers ≤ 64)
    (hfew : ∀ t, ∃ ts : List Temp, ts.length < registers ∧
      ∀ u, InConflict code live t u → u ≠ t → u ∈ ts) :
    ((build code live registers).colorAvoiding registers avoid).1.spilled = [] := by
  have hnodes := nodes_build code live registers
  refine spilled_eq_nil_of_no_moves (wellFormed_build code live registers) hnodes hregisters
    (moves_build_of_no_copies hcopies) fun n hn => ?_
  let g := build code live registers
  obtain ⟨center, hcenter⟩ : ∃ node, g.nodes[n]? = some node := ⟨_, Array.getElem?_eq_getElem hn⟩
  obtain ⟨ts, hlt, hts⟩ := hfew center.temp
  -- the neighbours are nodes of different temps in conflict with this one
  have hneighbour : ∀ m ∈ (g.adjacent n).toList, ∃ node, g.nodes[m]? = some node ∧
      g.tempOf m = node.temp ∧ node.temp ∈ ts := by
    intro m hm
    obtain ⟨t, u, ht, hu, hne, hconflict⟩ := inConflict_of_mem_adjacent (mem_toList.mp hm)
    obtain ⟨node, hnode, rfl⟩ := exists_node_of_index? ht
    obtain ⟨node', hnode', rfl⟩ := exists_node_of_index? hu
    obtain rfl : center = node := Option.some.inj (hcenter.symm.trans hnode)
    refine ⟨node', hnode', tempOf_eq hnode', hts _ hconflict fun heq => hne ?_⟩
    exact hnodes.distinct hnode hnode' heq.symm
  have hnodup : ((g.adjacent n).toList.map g.tempOf).Nodup := by
    refine (nodup_map_iff_inj_on (IndexSet.nodup_toList _)).mpr fun x hx y hy heq => ?_
    obtain ⟨nx, hnx, hx, -⟩ := hneighbour x hx
    obtain ⟨ny, hny, hy, -⟩ := hneighbour y hy
    exact hnodes.distinct hnx hny (hx.symm.trans (heq.trans hy))
  have hsub : (g.adjacent n).toList.map g.tempOf ⊆ ts := by
    intro t ht
    obtain ⟨m, hm, rfl⟩ := mem_map.mp ht
    obtain ⟨node, -, heq, hmem⟩ := hneighbour m hm
    rwa [heq]
  have hle := (hnodup.subperm hsub).length_le
  rw [length_map, length_toList] at hle
  exact Nat.lt_of_le_of_lt hle hlt

end Code

end Interference

/-! ## Code that is all entry -/

namespace Allocation

open Footprint Interference

variable {s s' : Session} {code rest : List Instruction} {entry : List Temp}

/-- Code is **all entry** if it copies nothing, and different temps are in conflict only
where the method is entered. -/
structure AllEntry (entry : List Temp) (code : List Instruction) : Prop where
  copies : ∀ i ∈ code, i.isCopy = false
  conflicts : ∀ {flow}, Flow.ofCode code = .ok flow → ∀ {t u},
    InConflict code (Liveness.solve flow.toArray) t u → u ≠ t → t ∈ entry ∧ u ∈ entry

/-- With as many registers as temps that the method is entered with, an attempt leaves
nothing to spill. -/
theorem AllEntry.spilled_eq_nil (h : AllEntry entry code) {registers : Nat} (hpos : 0 < registers)
    (hregisters : registers ≤ 64) (hentry : entry.length ≤ registers) {p : Progress} {round : Round}
    (hp : p.instructions = code) (hround : Yields (attempt p registers) s round s') :
    round.coloring.spilled = [] := by
  obtain ⟨flow, hflow, hliveness, hcolor, -⟩ := of_attempt hround
  rw [hp] at hflow hcolor
  rw [(Prod.mk.inj hcolor).1, hliveness]
  refine spilled_eq_nil_of_few h.copies hregisters fun t => ?_
  by_cases ht : t ∈ entry
  · refine ⟨entry.erase t, ?_, fun u hu hne =>
      (mem_erase_of_ne hne).mpr (h.conflicts hflow hu hne).2⟩
    have := length_erase_of_mem ht
    omega
  · exact ⟨[], hpos, fun u hu hne => absurd (h.conflicts hflow hu hne).1 ht⟩

/-- **Code that is all entry** gets its registers exactly if there is one for every temp
that the method is entered with. -/
theorem AllEntry.converged_iff (h : AllEntry entry code) (hcode : code = .enter entry :: rest)
    (hnodup : entry.Nodup) (hfp : ∀ t ∈ entry, t.isFramePointer = false)
    (howned : ∀ i ∈ code, i.OwnedBy s) (hresolved : Resolved (code.map Instruction.footprint))
    (hconfig : s.config.Valid) {frame : Frame} {r : Allocation × Frame}
    (hr : Yields (allocate code frame) s r s') :
    r.1.converged = true ↔ entry.length ≤ s.config.registers := by
  obtain ⟨bound, q, t, round, u, hrounds, hround, -, rfl, -⟩ :=
    CompiledMethod.exists_rounds_of_allocate hresolved hr
  have hconverged : ((finish q round).run u).1.converged = true ↔ round.coloring.spilled = [] := by
    obtain ⟨_, hfinish, -⟩ := finish_run q round u
    rw [hfinish, converged]
    cases round.coloring.spilled <;> simp
  rw [hconverged]
  constructor
  · intro hspilled
    obtain ⟨henters, howned'⟩ := hrounds.entersWith ⟨entry, rest, hcode, hnodup, rfl, hfp⟩ howned
    exact le_registers_of_attempt henters howned' hround hspilled
  · intro hle
    obtain ⟨hmin, hmax, -⟩ := hconfig
    have hpos : 0 < s.config.registers := Nat.lt_of_lt_of_le (by decide) hmin
    have hmax' : s.config.registers ≤ 64 := hmax.trans (by decide)
    -- the first attempt leaves nothing, so there is no other
    generalize s.config.maxSpillRounds = rounds at hrounds
    cases hrounds with
    | refl => exact h.spilled_eq_nil hpos hmax' hle rfl hround
    | spill attempted more _ _ =>
      refine absurd ?_ more
      rw [Round.candidates, h.spilled_eq_nil hpos hmax' hle rfl attempted, filter_nil]

end Allocation

end TreeBackend
