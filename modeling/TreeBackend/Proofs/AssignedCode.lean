import TreeBackend.Proofs.AllocationReports
import TreeBackend.Proofs.CompiledPrograms

/-!
# Code that reads what is assigned

From the tree of a method to its final code, every stage keeps what is assigned.
Reblocking leaves statements out that write nothing. Selection replaces a
statement by instructions that read what it reads. The instruction that enters a
method assigns what arrives from the caller, and the one that returns reads what
the body has assigned (`MethodTree.Sound.readsAssigned`).

Spilling takes temps out of the code. Where one of them was assigned before a
round of spilling, a word of the frame holds its value, and the frame pointer is
all that is needed to get at it. So a promise loses the spilled temps in every
round, and nothing else changes (`ReadsAssigned.spill`).

What code that reads what is assigned can find live where it starts is what was
assigned there: the frame pointer (`StartsClean`).
-/

namespace TreeBackend

open List Footprint

/-! ## Bodies that are tidied up -/

namespace Footprint.Flows

variable {promise : Label → Set Temp} {known known' : Set Temp} {f : Footprint}
  {fs : List Footprint} {stms : List Stm}

/-- A footprint that writes nothing may be left out. -/
theorem tail (h : Flows promise known (f :: fs) known') (hwrites : f.writes = []) :
    Flows promise known fs known' := by
  obtain _ | ⟨safe, rest⟩ := h
  refine rest.mono (Set.union_subset safe.arrives fun t ht => ?_)
  rw [hwrites] at ht
  cases ht

theorem filter {p : Stm → Bool} (hwrites : ∀ stm, p stm = false → stm.footprint.writes = [])
    (h : Flows promise known (stms.map Stm.footprint) known') :
    Flows promise known ((stms.filter p).map Stm.footprint) known' := by
  induction stms generalizing known with
  | nil => exact h
  | cons stm stms ih =>
    cases hp : p stm with
    | false =>
      rw [filter_cons_of_neg (by simp [hp])]
      exact ih (h.tail (hwrites stm hp))
    | true =>
      rw [filter_cons_of_pos hp]
      obtain _ | ⟨safe, rest⟩ := h
      exact .cons safe (ih rest)

/-- A hop writes nothing. -/
theorem withoutHops (h : Flows promise known (stms.map Stm.footprint) known') :
    Flows promise known ((Block.withoutHops stms).map Stm.footprint) known' := by
  induction stms generalizing known with
  | nil => exact h
  | cons stm stms ih =>
    rw [Block.withoutHops]
    split
    · next hhop =>
      obtain ⟨l, rest, rfl, -⟩ := Block.isHop_iff.mp hhop
      exact ih (h.tail rfl)
    · obtain _ | ⟨safe, rest⟩ := h
      exact .cons safe (ih rest)

/-- **Tidying up** keeps what is assigned. -/
theorem tidied (h : Flows promise known (stms.map Stm.footprint) known') :
    Flows promise known ((Block.tidied stms).map Stm.footprint) known' := by
  refine h.withoutHops.filter fun stm hstm => ?_
  cases stm with
  | label => rfl
  | move | exp | jump | cjump | seq => cases hstm

/-- Instructions that place no label and go nowhere, and read what is assigned
before the first of them. -/
theorem straight {code : List Instruction} (hlabel : ∀ i ∈ code, i.label? = none)
    (htargets : ∀ i ∈ code, i.targets = []) (hreads : ∀ i ∈ code, ∀ t ∈ i.uses, t ∈ known) :
    Flows promise known (code.map Instruction.footprint)
      (known ∪ {t | ∃ i ∈ code, t ∈ i.defs}) := by
  induction code generalizing known with
  | nil => exact .nil (by simp)
  | cons i code ih =>
    rw [forall_mem_cons] at hlabel htargets hreads
    have hleave : i.footprint.leave promise known = known ∪ {t | t ∈ i.defs} := by
      rw [leave, arrive_of_none hlabel.1]
      rfl
    refine .cons (safe_of_none hlabel.1 hreads.1 fun l hl => ?_) ?_
    · rw [show i.footprint.targets = [] from htargets.1] at hl
      cases hl
    · rw [hleave]
      refine (ih hlabel.2 htargets.2 fun j hj t ht => .inl (hreads.2 j hj t ht)).weaken ?_
      rintro t (ht | ⟨j, hj, ht⟩)
      · exact .inl (.inl ht)
      · obtain rfl | hj := mem_cons.mp hj
        · exact .inl (.inr ht)
        · exact .inr ⟨j, hj, ht⟩

end Footprint.Flows

/-! ## Spilled temps -/

namespace SpillCode

variable {slots : TempMap Int64} {s : Session} {i : Instruction} {ds : List Detour}
  {promise : Label → Set Temp} {known known' : Set Temp}

/-- What is left of some temps when those with a word are taken out. The frame
pointer is always at hand. -/
def unspilled (slots : TempMap Int64) (known : Set Temp) : Set Temp :=
  {t | t = .framePointer ∨ t ∈ known ∧ slots[t]? = none}

theorem unspilled_mono (h : known ⊆ known') : unspilled slots known ⊆ unspilled slots known' :=
  fun _ ht => ht.imp_right fun ht => ⟨h ht.1, ht.2⟩

theorem arrive_unspilled (f : Footprint) :
    f.arrive (fun l => unspilled slots (promise l)) (unspilled slots known)
      = unspilled slots (f.arrive promise known) := by
  cases hl : f.label? with
  | none => rw [arrive_of_none hl, arrive_of_none hl]
  | some l => rw [arrive_of_some hl, arrive_of_some hl]

/-- Loads need the frame pointer. -/
theorem Detour.flows_loads (hfp : .framePointer ∈ known) (ds : List Detour) :
    Flows promise known ((ds.map Detour.load).map Instruction.footprint)
      (known ∪ {t | ∃ d ∈ ds, d.fresh = t}) := by
  refine (Flows.straight ?_ ?_ ?_).weaken (Set.union_subset_union_right known ?_)
  · exact forall_mem_map.mpr fun d _ => rfl
  · exact forall_mem_map.mpr fun d _ => rfl
  · exact forall_mem_map.mpr fun d _ => forall_mem_singleton.mpr hfp
  · rintro t ⟨d, hd, rfl⟩
    exact ⟨d.load, mem_map_of_mem hd, mem_cons_self⟩

/-- Stores need the frame pointer and the temps of their detours. -/
theorem Detour.flows_stores (hfp : .framePointer ∈ known) {ds : List Detour}
    (hfresh : ∀ d ∈ ds, d.fresh ∈ known) :
    Flows promise known ((ds.map Detour.store).map Instruction.footprint) known := by
  refine (Flows.straight ?_ ?_ ?_).weaken Set.subset_union_left
  · exact forall_mem_map.mpr fun d _ => rfl
  · exact forall_mem_map.mpr fun d _ => rfl
  · exact forall_mem_map.mpr fun d hd =>
      forall_mem_cons.mpr ⟨hfresh d hd, forall_mem_singleton.mpr hfp⟩

namespace Detours

/-- A temp without a word is mentioned as it was. -/
theorem reroute_of_none (h : Detours slots s i ds) {t : Temp} (ht : slots[t]? = none) :
    reroute ds t = t := by
  refine reroute_of_notMem ?_
  rintro d hd rfl
  rw [h.slot d hd] at ht
  cases ht

/-- A temp that is mentioned goes over a detour, or it has no word. -/
theorem reroute_cases_of_mem (h : Detours slots s i ds) {t : Temp} (ht : t ∈ i.uses ++ i.defs) :
    (reroute ds t = t ∧ slots[t]? = none) ∨ ∃ d ∈ ds, d.temp = t ∧ reroute ds t = d.fresh := by
  refine (reroute_cases ds t).imp_left fun ⟨heq, hno⟩ => ⟨heq, ?_⟩
  rw [Option.eq_none_iff_forall_not_mem]
  intro offset hoffset
  obtain ⟨d, hd, htemp⟩ := h.exists_of_mem ht hoffset
  exact hno d hd htemp

/-- What an instruction leaves assigned, it leaves assigned on its detours, apart
from spilled temps. -/
theorem unspilled_leave (h : Detours slots s i ds) (hsub : unspilled slots known ⊆ known') :
    unspilled slots (i.footprint.leave promise known)
      ⊆ (routed i ds).instruction.footprint.leave (fun l => unspilled slots (promise l))
        known' := by
  have harrive : unspilled slots (i.footprint.arrive promise known)
      ⊆ i.footprint.arrive (fun l => unspilled slots (promise l)) known' := by
    rw [← arrive_unspilled]
    exact arrive_mono hsub _
  rintro t (rfl | ⟨ht | ht, hslot⟩)
  · exact .inl (harrive (.inl rfl))
  · exact .inl (harrive (.inr ⟨ht, hslot⟩))
  · exact .inr (mem_map.mpr ⟨t, ht, h.reroute_of_none hslot⟩)

/-- The instruction itself, once the loads have been made. -/
theorem safe (h : Detours slots s i ds) (hsafe : i.footprint.Safe promise known)
    (hsub : unspilled slots known ⊆ known')
    (hloaded : ∀ d ∈ among ds i.uses, d.fresh ∈ known') :
    (routed i ds).instruction.footprint.Safe (fun l => unspilled slots (promise l)) known' where
  arrives := by
    cases hl : i.label? with
    | none => exact (arrive_of_none hl).subset
    | some l =>
      have harrives := hsafe.arrives
      rw [arrive_of_some (f := i.footprint) hl] at harrives
      exact (arrive_of_some (f := (routed i ds).instruction.footprint) hl).subset.trans
        ((unspilled_mono harrives).trans hsub)
  reads t ht := by
    obtain ⟨x, hx, rfl⟩ := mem_map.mp ht
    have hlabel : i.label? = none := by
      by_contra hlabel
      have hbare : i.uses = [] := hsafe.bare hlabel
      rw [hbare] at hx
      cases hx
    have hread := hsafe.reads x hx
    rw [arrive_of_none (f := i.footprint) hlabel] at hread
    rw [arrive_of_none (f := (routed i ds).instruction.footprint) hlabel]
    obtain ⟨heq, hslot⟩ | ⟨d, hd, rfl, heq⟩ := h.reroute_cases_of_mem (mem_append_left _ hx)
    · rw [heq]
      exact hsub (.inr ⟨hread, hslot⟩)
    · rw [heq]
      exact hloaded d (mem_among.mpr ⟨hd, hx⟩)
  bare hlabel := by
    have hbare : i.uses = [] := hsafe.bare hlabel
    show i.uses.map (reroute ds) = []
    rw [hbare]
    rfl
  targets l hl := (unspilled_mono (hsafe.targets l hl)).trans (h.unspilled_leave hsub)

/-- **An instruction on its detours** reads what is assigned if the instruction
does. -/
theorem flows (h : Detours slots s i ds) (hsafe : i.footprint.Safe promise known) :
    Flows (fun l => unspilled slots (promise l)) (unspilled slots known)
      ((routed i ds).toList.map Instruction.footprint)
      (unspilled slots (i.footprint.leave promise known)) := by
  have hleave : unspilled slots (i.footprint.leave promise known)
      ⊆ (routed i ds).instruction.footprint.leave (fun l => unspilled slots (promise l))
        (unspilled slots known ∪ {t | ∃ d ∈ among ds i.uses, d.fresh = t}) :=
    h.unspilled_leave Set.subset_union_left
  rw [Wrapped.toList, map_append, map_cons]
  refine (Detour.flows_loads (.inl rfl) (among ds i.uses)).append (.cons
    (h.safe hsafe Set.subset_union_left fun d hd => .inr ⟨d, hd, rfl⟩)
    ((Detour.flows_stores ?_ ?_).weaken hleave))
  · exact hleave (.inl rfl)
  · intro d hd
    obtain ⟨hd, hdef⟩ := mem_among.mp hd
    exact .inr (mem_map.mpr ⟨d.temp, hdef, reroute_eq_fresh h.temps_nodup hd⟩)

end Detours

/-- **Spill code** reads what is assigned if the code does. -/
theorem flows_pieces {code : List Instruction} {routes : List (List Detour)}
    (h : List.Forall₂ (Detours slots s) code routes)
    (hcode : Flows promise known (code.map Instruction.footprint) known') :
    Flows (fun l => unspilled slots (promise l)) (unspilled slots known)
      ((pieces code routes).flatten.map Instruction.footprint) (unspilled slots known') := by
  induction h generalizing known with
  | nil =>
    obtain ⟨hsub⟩ := hcode
    exact .nil (unspilled_mono hsub)
  | @cons i ds code routes hds _ ih =>
    obtain _ | ⟨safe, rest⟩ := hcode
    show Flows _ _ (((routed i ds).toList ++ (pieces code routes).flatten).map _) _
    rw [map_append]
    exact (hds.flows safe).append (ih rest)

end SpillCode

/-! ## Rounds of spilling -/

/-- The code **reads what is assigned**: it enters a method, with nothing but the
frame pointer assigned. -/
structure ReadsAssigned (code : List Instruction) : Prop where
  enters : ∃ entry rest, code = .enter entry :: rest
  flows : ∃ promise known, Flows promise {.framePointer} (code.map Instruction.footprint) known

/-- One round of spilling keeps this. -/
theorem ReadsAssigned.spill {code : List Instruction} {slots : TempMap Int64} {s : Session}
    {routes : List (List SpillCode.Detour)} (h : ReadsAssigned code)
    (hroutes : List.Forall₂ (SpillCode.Detours slots s) code routes) :
    ReadsAssigned (SpillCode.pieces code routes).flatten where
  enters := by
    obtain ⟨entry, rest, rfl⟩ := h.enters
    cases hroutes with
    | @cons _ ds _ routes _ _ => exact ⟨_, _, SpillCode.flatten_pieces_enter entry rest ds routes⟩
  flows := by
    obtain ⟨promise, known, hflows⟩ := h.flows
    refine ⟨_, _, (SpillCode.flows_pieces hroutes hflows).mono ?_⟩
    rintro t (rfl | ⟨rfl, -⟩)
    · rfl
    · rfl

/-- **Rounds of spilling** keep it, however many there are. -/
theorem Allocation.Rounds.readsAssigned {registers bound bound' : Nat} {p q : Progress}
    {s u : Session} (h : Rounds registers bound p s bound' q u) (hp : ReadsAssigned p.instructions)
    (howned : ∀ i ∈ p.instructions, i.OwnedBy s) : ReadsAssigned q.instructions :=
  (h.keepsCode (fun h _ hroutes _ => h.spill hroutes) hp howned).1

/-! ## Methods -/

/-- Labels that are all different can promise anything. -/
theorem Promises.exists_keptBy {given : Promises} (h : (given.map Prod.fst).Nodup) :
    ∃ promise, given.KeptBy promise := by
  induction given with
  | nil => exact ⟨fun _ => ∅, nofun⟩
  | cons g given ih =>
    rw [map_cons, nodup_cons] at h
    obtain ⟨promise, hkept⟩ := ih h.2
    refine ⟨Function.update promise g.1 g.2, forall_mem_cons.mpr
      ⟨Function.update_self .., fun g' hg' => ?_⟩⟩
    rw [Function.update_of_ne, hkept g' hg']
    rintro heq
    exact h.1 (heq ▸ mem_map_of_mem hg')

/-- **The code selected for a body** flows as the body does, between the entry of the method
and its exit. It mentions temps that the session owns, if the body and its entry assign
such temps. -/
theorem Selection.flows_ofMethod {body : List Stm} (hbody : Body.Selectable body)
    {entry exit : List Temp} {v w : Session} {code : Code}
    (hcode : Yields (ofMethod body entry exit) v code w) {promise : Label → Set Temp}
    {start known : Set Temp}
    (hflows : Flows promise (start ∪ {t | t ∈ entry}) (body.map Stm.footprint) known)
    (hexit : ∀ t ∈ exit, t ∈ known) (hstart : ∀ t ∈ start, v.Owns t)
    (hentry : ∀ t ∈ entry, v.Owns t)
    (hwrites : ∀ stm ∈ body, ∀ t ∈ stm.footprint.writes, v.Owns t) :
    (∃ rest, code.instructions = .enter entry :: rest) ∧
      Flows promise start (code.instructions.map Instruction.footprint) known ∧
      (∀ i ∈ code.instructions, i.OwnedBy w) ∧ v.DrawsTemps w := by
  obtain ⟨_, _, is, hcode', his, hdraws, htraced, hdefs⟩ := ofMethod_traces hbody entry exit v
  obtain ⟨rfl, rfl⟩ := hcode.unique hcode'
  -- the entry is assigned first, and the exit read last
  have hall : Flows promise start (code.instructions.map Instruction.footprint) known := by
    rw [his, map_cons, map_append]
    refine .cons (safe_of_none rfl nofun nofun) ((htraced.flows hflows).append ?_)
    exact .cons (safe_of_none rfl hexit nofun) (.nil Set.subset_union_left)
  have howned : ∀ i ∈ code.instructions, ∀ t ∈ i.defs, w.Owns t := by
    rw [his, forall_mem_cons, forall_mem_append, forall_mem_singleton]
    refine ⟨fun t ht => (hentry t ht).mono hdraws.le, fun i hi t ht => ?_, nofun⟩
    obtain ⟨stm, hstm, ht⟩ | howns := hdefs i hi t ht
    · exact (hwrites stm hstm t ht).mono hdraws.le
    · exact howns
  refine ⟨⟨_, his⟩, hall, fun i hi => forall_mem_append.mpr ⟨fun t ht => ?_, howned i hi⟩, hdraws⟩
  obtain hmem | ⟨f, hf, ht⟩ := hall.mem_of_read (mem_map_of_mem hi) ht
  · exact (hstart t hmem).mono hdraws.le
  · obtain ⟨j, hj, rfl⟩ := mem_map.mp hf
    exact howned j hj t ht

/-- A statement within reach writes temps that may be assigned. -/
theorem Stm.Within.writes {stm : Stm} {r : Reach} (h : stm.Within r) {t : Temp}
    (ht : t ∈ stm.footprint.writes) : t ∈ r.assigned := by
  cases stm with
  | move dst src =>
    cases dst with
    | temp =>
      obtain rfl := mem_singleton.mp ht
      exact h.1.1 _ rfl
    | const | name | binop | not | mem | call | eseq => cases ht
  | exp | jump | label | cjump | seq => cases ht

namespace MethodTree.Sound

variable {tree : MethodTree} {s u v : Session} {c : Stm}

/-- The canonical form of a sound tree reads what is assigned. -/
theorem exists_flows (h : tree.Sound s) (hc : Yields tree.body.toStm.canonicalize s c u) :
    ∃ promise known, (∀ t ∈ tree.exit, t ∈ known) ∧
      Flows promise {t | t = .framePointer ∨ t ∈ tree.entry} (c.linear.map Stm.footprint)
        known := by
  obtain ⟨given, known, hperm, -, hexit, hflows⟩ :=
    h.assigns (Stm.renders_singleton.mpr ⟨c, hc, rfl⟩) _ subset_rfl
  have hnodup : (given.map Prod.fst).Nodup := by
    rw [hperm.nodup_iff, (tree.body.toStm.hasForm hc).labels]
    exact h.once
  obtain ⟨promise, hkept⟩ := Promises.exists_keptBy hnodup
  exact ⟨promise, known, hexit, hflows promise hkept nofun⟩

/-- **The selected code of a sound tree** reads what is assigned, and mentions temps
that the session owns. -/
theorem readsAssigned (h : tree.Sound s) (hc : Yields tree.body.toStm.canonicalize s c u)
    (hle : u.tempCount ≤ v.tempCount) {code : Code} {w : Session}
    (hcode : Yields (Selection.ofMethod (Block.tidied c.linear) tree.entry tree.exit) v code w) :
    ReadsAssigned code.instructions ∧ ∀ i ∈ code.instructions, i.OwnedBy w := by
  have hsublist : (Block.tidied c.linear).Sublist c.linear :=
    filter_sublist.trans (Block.withoutHops_sublist c.linear)
  have hle' : s.tempCount ≤ v.tempCount := (Stm.le_of_canonicalize hc).trans hle
  obtain ⟨promise, known, hexit, hflows⟩ := h.exists_flows hc
  obtain ⟨⟨rest, hrest⟩, hall, howned, -⟩ := Selection.flows_ofMethod
    (fun stm hstm => Stm.selectable_linear hc stm (hsublist.subset hstm)) hcode
    (hflows.tidied.mono fun t ht => ht) hexit (by rintro _ rfl; rfl)
    (fun t ht => (h.entry t ht).mono hle')
    fun stm hstm t ht => ((h.canonical_within hc stm (hsublist.subset hstm)).writes ht).mono hle
  exact ⟨⟨⟨_, rest, hrest⟩, promise, known, hall⟩, howned⟩

end MethodTree.Sound

/-! ## Where code starts -/

/-- Code that **starts clean**: it enters a method, and nothing but the frame pointer
is needed there. -/
structure StartsClean (code : List Instruction) : Prop where
  enters : ∃ entry rest, code = .enter entry :: rest
  /-- The code has live sets, and at most the frame pointer is live before the first
  instruction. -/
  live : ∀ s, ∃ l s', Yields (Liveness.analyze code) s l s' ∧ ∀ t ∈ l.before 0, t = .framePointer
  /-- On no path from the first instruction another temp is read without being
  written before. -/
  paths : ∃ flow, Flow.ofCode code = .ok flow ∧
    ∀ t, Liveness.ReadAhead flow.toArray t 0 → t = .framePointer

namespace ReadsAssigned

variable {code : List Instruction} {flow : List FlowNode} {t : Temp}

/-- On no path another temp than the frame pointer is read unwritten. -/
theorem of_readAhead (h : ReadsAssigned code) (hflow : Flow.ofCode code = .ok flow)
    (ht : Liveness.ReadAhead flow.toArray t 0) : t = .framePointer := by
  obtain ⟨promise, known, hflows⟩ := h.flows
  exact hflows.of_readAhead hflow ht

theorem of_live (h : ReadsAssigned code) (hflow : Flow.ofCode code = .ok flow)
    (ht : t ∈ (Liveness.solve flow.toArray).before 0) : t = .framePointer :=
  h.of_readAhead hflow (Liveness.readAhead_of_mem_before hflow ht)

/-- **Code that reads what is assigned starts clean**, once its jumps are resolved. -/
theorem startsClean (h : ReadsAssigned code)
    (hcode : Resolved (code.map Instruction.footprint)) : StartsClean code where
  enters := h.enters
  live s := by
    obtain ⟨l, s', hl⟩ := (Liveness.exists_analyze_iff (s := s)).mpr hcode
    obtain ⟨flow, hflow, rfl⟩ := Liveness.eq_solve_of_analyze hl
    exact ⟨_, s', hl, fun t ht => h.of_live hflow ht⟩
  paths := by
    obtain ⟨flow, hflow⟩ := Flow.exists_ofCode_iff.mpr hcode
    exact ⟨flow, hflow, fun t ht => h.of_readAhead hflow ht⟩

end ReadsAssigned

namespace CompiledMethod

variable {strict : Bool} {s s' : Session} {m : CompiledMethod}

/-- The code of a sound tree **starts clean**, before registers are allocated and
after. -/
theorem startsClean_of_sound {tree : MethodTree} (h : tree.Sound s)
    (hm : Yields (ofTree strict tree) s m s') :
    StartsClean m.code.instructions ∧ StartsClean m.allocation.instructions ∧
      ∀ t ∈ m.allocation.liveness.before 0, t = .framePointer := by
  obtain ⟨u, v, w, w', hc, hout, hcode, halloc, -⟩ := of_compile hm
  obtain ⟨_, hout'⟩ := h.exists_reblock hc
  obtain ⟨hreblocked, rfl⟩ := hout.unique hout'
  obtain ⟨-, hcontinues, hresolved, -⟩ := of_selectBody hc hout hcode
  rw [hreblocked] at hcode
  obtain ⟨hreads, howned⟩ := h.readsAssigned hc hcontinues.le hcode
  obtain ⟨bound, q, t, round, u', hrounds, hround, hq, hliveness⟩ := of_allocate hresolved halloc
  have hreads' := hrounds.readsAssigned hreads howned
  refine ⟨hreads.startsClean hresolved, ?_, ?_⟩
  · rw [hq]
    exact hreads'.startsClean (hrounds.sameJumps.1.resolved hresolved)
  · obtain ⟨flow, hflow, hsolve, -⟩ := Allocation.of_attempt hround
    rw [hliveness, hsolve]
    exact fun t ht => hreads'.of_live hflow ht

/-- **Generated code never reads a temp that is not assigned.** Take any program, any
session and any configuration for which the program is compiled, `strict` or not, and
any method of it.

* The selected code enters the method, and at most the frame pointer is live there: on
  every path every other temp is written before it is read.
* The same holds for the final code, however many rounds of spilling there were, and
  the live sets that the allocation reports say so. -/
theorem ofProgram_startsClean {program : Program} {methods : List CompiledMethod}
    (h : Yields (ofProgram strict program) s methods s') :
    ∀ m ∈ methods, StartsClean m.code.instructions ∧ StartsClean m.allocation.instructions ∧
      ∀ t ∈ m.allocation.liveness.before 0, t = .framePointer := by
  simp only [ofProgram, yields_bind] at h
  obtain ⟨_, _, -, table, u, -, trees, v, htrees, hmethods⟩ := h
  have hsound := MethodTree.sound_ofProgram htrees
  obtain ⟨-, hmem⟩ := Yields.of_mapM Session.Continues.refl Session.Continues.trans
    (fun h => (growing_compile _ _ _ _ _).continues h) hmethods
  intro m hm
  obtain ⟨tree, htree, a, b, hcontinues, hm, -⟩ := hmem m hm
  exact startsClean_of_sound ((hsound tree htree).mono hcontinues) hm

theorem ofProgram_startsClean_summingProgram : ∃ methods s',
    Yields (ofProgram false summingProgram) {} methods s' ∧ methods.length = 3 ∧
      ∀ m ∈ methods, StartsClean m.code.instructions ∧ StartsClean m.allocation.instructions ∧
        ∀ t ∈ m.allocation.liveness.before 0, t = .framePointer := by
  let lowering : CompileM (List MethodTree) := do
    MethodTree.ofProgram summingProgram (← ClassTable.build summingProgram)
  obtain ⟨trees, v, htrees⟩ : ∃ trees v, Yields lowering {} trees v :=
    exists_yields_of_isOk (by decide +kernel)
  have hlength : (lowering.run.run {}).1.toOption.map List.length = some 3 := by decide +kernel
  rw [show lowering.run.run {} = (.ok trees, v) from htrees] at hlength
  obtain ⟨table, u, htable, htrees⟩ := yields_bind.mp htrees
  obtain ⟨methods, s', hmethods, hnames⟩ := exists_ofProgram (by decide) htable htrees
  have hmethods_length : methods.length = 3 := by
    rw [← Option.some.inj hlength, ← length_map, hnames, length_map]
  exact ⟨methods, s', hmethods, hmethods_length, ofProgram_startsClean hmethods⟩

end CompiledMethod

end TreeBackend
