import TreeBackend.Proofs.AllocationReports
import TreeBackend.Proofs.CodeTwice
import TreeBackend.Proofs.Spilling

/-!
# Taking spill code out again

Spill code is the code that was spilled with insertions: around an instruction stand the
loads and stores of its detours, and the instruction names the temps they lead over. A
**splice** keeps an instruction together with what became of it (`SpillCode.Splice`).

Nothing is lost on the way. Leave the insertions out and let every temp that was drawn be
the temp it stands for again (`SpillCode.restore`), and the code is what it was. Nor is
anything shared: of all the instructions of spill code, those that mention a temp that was
drawn are the one instruction it was drawn for, a load before it if that instruction reads
the temp it stands for, and a store after it if it writes it.
-/

namespace TreeBackend

open List

open Interference (mentions)

variable {t : Temp}

namespace SpillCode

/-! ## The way back -/

/-- The temp that a drawn temp stands for; any other temp stands for itself. -/
def restore (ds : List Detour) (t : Temp) : Temp := match ds.find? (·.fresh = t) with
  | some d => d.temp
  | none => t

section Restore

variable {all ds : List Detour}

theorem restore_of_notMem (h : ∀ d ∈ ds, d.fresh ≠ t) : restore ds t = t := by
  unfold restore
  rw [List.find?_eq_none.mpr (fun d hd => by simpa using h d hd)]

/-- Of detours over different temps, each leads back to its own. -/
theorem restore_fresh (hnodup : (ds.map (·.fresh)).Nodup) {d : Detour} (hd : d ∈ ds) :
    restore ds d.fresh = d.temp := by
  unfold restore
  cases hf : ds.find? (·.fresh = d.fresh) with
  | none => exact absurd rfl ((by simpa using hf : ∀ e ∈ ds, e.fresh ≠ d.fresh) d hd)
  | some e =>
    have hfresh : e.fresh = d.fresh := by simpa using List.find?_some hf
    rw [inj_on_of_nodup_map hnodup (mem_of_find?_eq_some hf) hd hfresh]

/-- **Restoring undoes rerouting**, whatever other detours there are. -/
theorem restore_reroute (hsub : ds ⊆ all) (hnodup : (all.map (·.fresh)).Nodup)
    (ht : ∀ d ∈ all, d.fresh ≠ t) : restore all (reroute ds t) = t := by
  obtain ⟨hsame, -⟩ | ⟨d, hd, rfl, hfresh⟩ := reroute_cases ds t
  · rw [hsame, restore_of_notMem ht]
  · rw [hfresh, restore_fresh hnodup (hsub hd)]

theorem mapTemps_restore_routed {i : Instruction} (hsub : ds ⊆ all)
    (hnodup : (all.map (·.fresh)).Nodup)
    (hi : ∀ t ∈ i.uses ++ i.defs, ∀ d ∈ all, d.fresh ≠ t) :
    (routed i ds).instruction.mapTemps (restore all) = i := by
  have hback : ∀ {ts : List Temp}, (∀ t ∈ ts, t ∈ i.uses ++ i.defs) →
      (ts.map (reroute ds)).map (restore all) = ts := by
    intro ts hts
    rw [map_map]
    refine (map_congr_left fun t ht => ?_).trans (map_id ts)
    exact restore_reroute hsub hnodup (hi t (hts t ht))
  show { i with
    uses := (i.uses.map (reroute ds)).map (restore all)
    defs := (i.defs.map (reroute ds)).map (restore all) } = i
  rw [hback fun t => mem_append_left _, hback fun t => mem_append_right _]

end Restore

/-! ## Where a temp is mentioned -/

/-- The instructions of code that mention a temp, in order. -/
def mentioning (code : List Instruction) (t : Temp) : List Instruction :=
  code.filter fun i => t ∈ i.uses ++ i.defs

theorem mentioning_append (code more : List Instruction) (t : Temp) :
    mentioning (code ++ more) t = mentioning code t ++ mentioning more t :=
  filter_append code more

theorem mentioning_eq_nil {code : List Instruction} (h : t ∉ mentions code) :
    mentioning code t = [] := by
  refine filter_eq_nil_iff.mpr fun i hi ht => h ?_
  exact mem_flatMap.mpr ⟨i, hi, of_decide_eq_true ht⟩

variable {slots : TempMap Int64} {s : Session} {i : Instruction} {ds : List Detour} {d : Detour}

/-- Of the insertions for detours over different temps, only a detour's own mentions its temp. -/
theorem mentioning_insertions {f : Detour → Instruction}
    (hf : ∀ e t, t ∈ (f e).uses ++ (f e).defs ↔ t = .framePointer ∨ t = e.fresh)
    (hnodup : (ds.map (·.fresh)).Nodup) (hfp : d.fresh ≠ .framePointer) (hd : d ∈ ds)
    (ts : List Temp) :
    mentioning ((among ds ts).map f) d.fresh = if d.temp ∈ ts then [f d] else [] := by
  have honly : (among ds ts).filter (fun e => d.fresh ∈ (f e).uses ++ (f e).defs)
      = (among ds ts).filter (· == d) := by
    refine filter_congr fun e he => ?_
    rw [Bool.eq_iff_iff, decide_eq_true_iff, beq_iff_eq, hf, or_iff_right hfp]
    refine ⟨fun heq => ?_, fun heq => heq ▸ rfl⟩
    exact inj_on_of_nodup_map hnodup (mem_among.mp he).1 hd heq.symm
  have hall : (among ds ts).Nodup := hnodup.of_map.filter _
  unfold mentioning
  rw [filter_map, Function.comp_def, honly, filter_beq]
  by_cases ht : d.temp ∈ ts
  · rw [if_pos ht, count_eq_one_of_mem hall (mem_among.mpr ⟨hd, ht⟩)]
    rfl
  · rw [if_neg ht, count_eq_zero_of_not_mem fun hmem => ht (mem_among.mp hmem).2]
    rfl

/-- **The temp of a detour in its own piece**: it is mentioned by the load, the instruction and
the store. -/
theorem Detours.mentioning_toList (h : Detours slots s i ds) (hd : d ∈ ds) :
    mentioning (routed i ds).toList d.fresh = (if d.temp ∈ i.uses then [d.load] else []) ++
        (routed i ds).instruction :: if d.temp ∈ i.defs then [d.store] else [] := by
  have hfp : d.fresh ≠ .framePointer := fun heq => h.not_owned d hd (heq ▸ rfl)
  have hown : d.fresh ∈ (routed i ds).instruction.uses ++ (routed i ds).instruction.defs := by
    show d.fresh ∈ i.uses.map (reroute ds) ++ i.defs.map (reroute ds)
    rw [← map_append, ← reroute_eq_fresh h.temps_nodup hd]
    exact mem_map_of_mem (h.temp_mem d hd)
  have hloads := mentioning_insertions (f := Detour.load)
    (fun e t => by simp [Detour.load, Instruction.load, slotAddress]) h.fresh_nodup hfp hd i.uses
  have hstores := mentioning_insertions (f := Detour.store)
    (fun e t => by simp [Detour.store, Instruction.store, slotAddress, or_comm]) h.fresh_nodup hfp
    hd i.defs
  rw [Wrapped.toList, mentioning_append]
  refine congrArg₂ _ hloads ?_
  exact (filter_cons_of_pos (by simpa using hown)).trans (congrArg _ hstores)

/-! ## Splices -/

/-- An instruction that spill code was inserted around. -/
structure Splice where
  /-- The instruction as it was. -/
  original : Instruction
  /-- The instruction as it is now, and what was inserted before and after it. -/
  wrapped : Wrapped
  /-- The temps that were drawn for it, and what they stand for. -/
  detours : List Detour

namespace Splice

/-- A splice **serves** to spill temps: each of them that the instruction mentions has one
detour, over its own word. Before the instruction stand the loads of the detours for the temps
that it reads, after it the stores of the detours for those it writes, and nothing else. If it
read and wrote one temp in two places, the same temp stands in both places now. -/
structure Serves (p : Splice) (spilled : List Temp) (slots : TempMap Int64) : Prop where
  temps_nodup : (p.detours.map (·.temp)).Nodup
  mem_temps : ∀ t, t ∈ p.detours.map (·.temp) ↔ t ∈ spilled ∧ t ∈ p.original.uses ++ p.original.defs
  slot : ∀ d ∈ p.detours, slots[d.temp]? = some d.offset
  before : p.wrapped.before = (p.detours.filter (·.temp ∈ p.original.uses)).map Detour.load
  after : p.wrapped.after = (p.detours.filter (·.temp ∈ p.original.defs)).map Detour.store
  tied : ∀ {a b : Nat} {t : Temp}, p.original.uses[a]? = some t → p.original.defs[b]? = some t →
    ∃ u, p.wrapped.instruction.uses[a]? = some u ∧ p.wrapped.instruction.defs[b]? = some u

/-- The splice of an instruction with its detours. -/
def ofDetours (i : Instruction) (ds : List Detour) : Splice := ⟨i, routed i ds, ds⟩

theorem serves_ofDetours (h : Detours slots s i ds) {spilled : List Temp}
    (hslots : ∀ t, slots[t]?.isSome ↔ t ∈ spilled) : (ofDetours i ds).Serves spilled slots := by
  refine ⟨h.temps_nodup, fun t => ?_, h.slot, rfl, rfl, fun {a b t} ha hb => ?_⟩
  · rw [← hslots, mem_map]
    constructor
    · rintro ⟨d, hd, rfl⟩
      exact ⟨by rw [h.slot d hd]; rfl, h.temp_mem d hd⟩
    · rintro ⟨hslot, ht⟩
      obtain ⟨offset, hoffset⟩ := Option.isSome_iff_exists.mp hslot
      exact h.exists_of_mem ht hoffset
  · refine ⟨reroute ds t, ?_, ?_⟩
    · exact List.getElem?_map.trans (congrArg (Option.map (reroute ds)) ha)
    · exact List.getElem?_map.trans (congrArg (Option.map (reroute ds)) hb)

/-- The splice **of a session**: its instruction is one over temps of the session, sent over
detours. -/
structure Of (p : Splice) (s : Session) (slots : TempMap Int64) : Prop where
  eq_ofDetours : p = ofDetours p.original p.detours
  detours : Detours slots s p.original p.detours
  owned : p.original.OwnedBy s

end Splice

section Splices

variable {code : List Instruction} {routes : List (List Detour)}

/-- Code whose instructions are sent over detours is made of splices. -/
theorem exists_splices (h : List.Forall₂ (Detours slots s) code routes)
    (howned : ∀ i ∈ code, i.OwnedBy s) :
    ∃ splices : List Splice, (pieces code routes).flatten = splices.flatMap (·.wrapped.toList) ∧
      splices.map (·.original) = code ∧ splices.flatMap (·.detours) = routes.flatten ∧
      ∀ p ∈ splices, p.Of s slots := by
  induction h with
  | nil => exact ⟨[], rfl, rfl, rfl, fun p hp => absurd hp not_mem_nil⟩
  | @cons i ds code routes hds _ ih =>
    obtain ⟨hi, hrest⟩ := forall_mem_cons.mp howned
    obtain ⟨splices, hcode, horiginal, hdetours, hall⟩ := ih hrest
    refine ⟨.ofDetours i ds :: splices, ?_, ?_, ?_, ?_⟩
    · rw [flatMap_cons, ← hcode]
      rfl
    · rw [map_cons, horiginal]
      rfl
    · rw [flatMap_cons, hdetours]
      rfl
    · exact forall_mem_cons.mpr ⟨⟨rfl, hds, hi⟩, hall⟩

variable {splices : List Splice}

/-- Splices mention no temps but those of the session and those drawn for them. -/
theorem mentioning_splices_eq_nil (h : ∀ p ∈ splices, p.Of s slots) (ht : ¬ s.Owns t)
    (hno : t ∉ (splices.flatMap (·.detours)).map (·.fresh)) :
    mentioning (splices.flatMap (·.wrapped.toList)) t = [] := by
  refine mentioning_eq_nil fun hmem => ?_
  obtain ⟨j, hj, htj⟩ := mem_flatMap.mp hmem
  obtain ⟨p, hp, hj⟩ := mem_flatMap.mp hj
  rw [(h p hp).eq_ofDetours] at hj
  obtain rfl | ⟨d, hd, rfl⟩ | ⟨hmem, -⟩ :=
    (h p hp).detours.mem_mentions_toList (mem_flatMap.mpr ⟨j, hj, htj⟩)
  · exact ht rfl
  · exact hno (mem_map_of_mem (mem_flatMap.mpr ⟨p, hp, hd⟩))
  · exact ht ((h p hp).owned t hmem)

/-- **The temp of a detour in spill code**: the splice that it was drawn for is the only one to
mention it. -/
theorem mentioning_splices (h : ∀ p ∈ splices, p.Of s slots)
    (hnodup : ((splices.flatMap (·.detours)).map (·.fresh)).Nodup) {p : Splice} (hp : p ∈ splices)
    (hd : d ∈ p.detours) :
    mentioning (splices.flatMap (·.wrapped.toList)) d.fresh
      = mentioning p.wrapped.toList d.fresh := by
  have hout := (h p hp).detours.not_owned d hd
  have hown : d.fresh ∈ p.detours.map (·.fresh) := mem_map_of_mem hd
  obtain ⟨before, after, rfl⟩ := append_of_mem hp
  -- drawn temps are different, so neither side has the temp
  rw [flatMap_append, flatMap_cons, map_append, map_append] at hnodup
  obtain ⟨-, hrest, hbefore⟩ := nodup_append.mp hnodup
  obtain ⟨-, -, hafter⟩ := nodup_append.mp hrest
  rw [flatMap_append, flatMap_cons, mentioning_append, mentioning_append,
    mentioning_splices_eq_nil (fun q hq => h q (mem_append_left _ hq)) hout
      (fun hmem => hbefore _ hmem _ (mem_append_left _ hown) rfl),
    mentioning_splices_eq_nil (fun q hq => h q (mem_append_right _ (mem_cons_of_mem _ hq))) hout
      (fun hmem => hafter _ hown _ hmem rfl), nil_append, append_nil]

/-- With the insertions left out and the drawn temps restored, splices are their originals. -/
theorem map_restore_splices (h : ∀ p ∈ splices, p.Of s slots)
    (hnodup : ((splices.flatMap (·.detours)).map (·.fresh)).Nodup) :
    splices.map (fun p => p.wrapped.instruction.mapTemps (restore (splices.flatMap (·.detours))))
      = splices.map (·.original) := by
  refine map_congr_left fun p hp => ?_
  rw [(h p hp).eq_ofDetours]
  refine mapTemps_restore_routed (fun d hd => mem_flatMap.mpr ⟨p, hp, hd⟩) hnodup
    fun t ht d hd heq => ?_
  obtain ⟨q, hq, hd⟩ := mem_flatMap.mp hd
  exact (h q hq).detours.not_owned d hd (heq ▸ (h p hp).owned t ht)

end Splices

/-- **Spill code is complete, and can be taken out again.** Spill temps of a session, other than
the frame pointer, in code over temps of the session. What comes out mentions none of them, and is
made of splices, one for each instruction. With the insertions left out and every drawn temp
restored to the one that it stands for, the code is what it was. Each drawn temp is new and drawn
once, for one spilled temp at one instruction; the instructions that mention it are that
instruction, a load of the spilled temp's word before it, if it read the spilled temp, and a store
to that word after it, if it wrote the spilled temp. -/
theorem spillCode_can_be_taken_out {code : List Instruction} {spilled : List Temp} {frame : Frame}
    {s : Session} (howned : ∀ i ∈ code, i.OwnedBy s)
    (hspilled : ∀ t ∈ spilled, s.Owns t ∧ t ≠ .framePointer) :
    let result := ((ofCode code spilled frame).run s).1.1
    (∀ t ∈ spilled, t ∉ mentions result.instructions) ∧
    ∃ splices : List Splice, result.instructions = splices.flatMap (·.wrapped.toList) ∧
      splices.map (·.original) = code ∧
      splices.map (fun p =>
        p.wrapped.instruction.mapTemps (restore (splices.flatMap (·.detours)))) = code ∧
      result.temps = (splices.flatMap (·.detours)).map (·.fresh) ∧
      result.temps.Nodup ∧ (∀ t ∈ result.temps, ¬ s.Owns t) ∧
      ∀ p ∈ splices, p.Serves spilled result.slots ∧ ∀ d ∈ p.detours,
        mentioning result.instructions d.fresh
          = (if d.temp ∈ p.original.uses then [d.load] else []) ++ p.wrapped.instruction ::
            if d.temp ∈ p.original.defs then [d.store] else [] := by
  intro result
  obtain ⟨routes, hroutes, hfresh, hrun⟩ :=
    routeAll_run (reserve spilled ∅ frame).1 howned (Nat.le_refl _)
  have hcode : result.instructions = (pieces code routes).flatten := congrArg (·.1.1) hrun
  have htemps : result.temps = routes.flatten.map (·.fresh) := congrArg (·.1.2) hrun
  have hslots : ∀ t, result.slots[t]?.isSome ↔ t ∈ spilled := fun t =>
    (isSome_reserve spilled ∅ frame t).trans (or_iff_left (by simp))
  have hnew : ∀ t ∈ result.temps, ¬ s.Owns t := by
    rw [htemps]
    rintro t ht
    obtain ⟨d, hd, rfl⟩ := mem_map.mp ht
    exact not_owns_of_mem_routes hroutes hd
  obtain ⟨splices, hpieces, horiginal, hdetours, hall⟩ := exists_splices hroutes howned
  rw [← hdetours] at htemps hfresh
  have hnodup : ((splices.flatMap (·.detours)).map (·.fresh)).Nodup := hfresh ▸ nodup_spillTemps _ _
  refine ⟨fun t ht hmem => ?_, splices, hcode.trans hpieces, horiginal,
    (map_restore_splices hall hnodup).trans horiginal, htemps, htemps ▸ hnodup, hnew,
    fun p hp => ⟨?_, fun d hd => ?_⟩⟩
  · rw [hcode] at hmem
    obtain heq | ⟨d, hd, heq⟩ | ⟨-, hnone⟩ := mem_mentions_pieces hroutes hmem
    · exact (hspilled t ht).2 heq
    · exact not_owns_of_mem_routes hroutes hd (heq ▸ (hspilled t ht).1)
    · have hsome := (hslots t).mpr ht
      rw [show result.slots[t]? = none from hnone] at hsome
      cases hsome
  · rw [(hall p hp).eq_ofDetours]
    exact Splice.serves_ofDetours (hall p hp).detours hslots
  · rw [hcode, hpieces, mentioning_splices hall hnodup hp hd, (hall p hp).eq_ofDetours]
    exact (hall p hp).detours.mentioning_toList hd

/-- Both temps of `addAndPrint` spilled: four loads and one store are inserted, and can be taken
out again. -/
theorem spillCode_can_be_taken_out_addAndPrint :
    let spilled : List Temp := [⟨7, .plain "t"⟩, ⟨8, .plain "u"⟩]
    let frame : Frame := ⟨"main", 8, 0, ⟨9, .plain "ret"⟩, [], [], 0, 0⟩
    let result := ((ofCode addAndPrint spilled frame).run (.ofTemps ["t", "u", "ret"])).1.1
    result.instructions.length = 8 ∧ (∀ t ∈ spilled, t ∉ mentions result.instructions) ∧
      ∃ splices : List Splice, result.instructions = splices.flatMap (·.wrapped.toList) ∧
        splices.map (fun p =>
          p.wrapped.instruction.mapTemps (restore (splices.flatMap (·.detours)))) = addAndPrint ∧
        ∀ p ∈ splices, p.Serves spilled result.slots := by
  intro spilled frame result
  obtain ⟨hgone, splices, hcode, -, hback, -, -, -, hall⟩ :=
    @spillCode_can_be_taken_out addAndPrint spilled frame (.ofTemps ["t", "u", "ret"]) (by decide)
      (by decide)
  exact ⟨by decide +kernel, hgone, splices, hcode, hback, fun p hp => (hall p hp).1⟩

end SpillCode

end TreeBackend
