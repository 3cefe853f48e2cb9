import TreeBackend.Proofs.GraphColoring
import TreeBackend.Proofs.Ownership

/-!
# Registers in place of temps

A colouring without spills gives every temp of the code a register. Two temps
may share one, so the machine with few registers forgets what the machine with
a register for every temp remembers. What it never forgets is a value that is
still going to be read: `Machine.Matches` says that the two machines are at the
same place with the same memory, and that every temp that is *live* there is in
its register.

The argument has two halves that meet in `Machine.Separates`. Interference,
reduction and selection make sure that the homes of two temps in conflict are
different registers; a machine only ever relies on that. The copy is the one
instruction that may write a register in which a live temp sits, and then it
writes the value that is there already.
-/

namespace TreeBackend

open List Function Std.ExtTreeSet Coloring

variable {defs : List Temp} {t : Temp} {p : Temp × Temp} {out : TempSet}

/-! ## The conflicts of an instruction -/

namespace Interference

theorem mem_defConflicts {out : List Temp} {d : Temp} (hd : d ∈ defs) (ht : t ∈ out) :
    (d, t) ∈ defConflicts out defs := by
  induction defs with
  | nil => cases hd
  | cons d' rest ih =>
    refine mem_append.mpr ?_
    obtain rfl | hd := mem_cons.mp hd
    · exact .inl (mem_map_of_mem (mem_append_left _ ht))
    · exact .inr (ih hd)

theorem of_mem_defConflicts {out : List Temp} (h : p ∈ defConflicts out defs) :
    p.1 ∈ defs ∧ (p.2 ∈ out ∨ p.2 ∈ defs) := by
  induction defs with
  | nil => cases h
  | cons d rest ih =>
    obtain h | h := mem_append.mp h
    · obtain ⟨t, ht, rfl⟩ := mem_map.mp h
      exact ⟨mem_cons_self, (mem_append.mp ht).imp id (mem_cons_of_mem _)⟩
    · exact ⟨mem_cons_of_mem _ (ih h).1, (ih h).2.imp id (mem_cons_of_mem _)⟩

/-- Of two temps that an instruction writes, one is kept apart from the other. -/
theorem mem_defConflicts_of_defs (out : List Temp) {x y : Temp} (hx : x ∈ defs) (hy : y ∈ defs)
    (hne : x ≠ y) : (x, y) ∈ defConflicts out defs ∨ (y, x) ∈ defConflicts out defs := by
  induction defs with
  | nil => cases hx
  | cons d rest ih =>
    have hhead {t : Temp} (ht : t ∈ rest) : (d, t) ∈ defConflicts out (d :: rest) :=
      mem_append_left _ (mem_map_of_mem (mem_append_right _ ht))
    obtain rfl | hx' := mem_cons.mp hx
    · exact .inl (hhead ((mem_cons.mp hy).resolve_left (Ne.symm hne)))
    · obtain rfl | hy' := mem_cons.mp hy
      · exact .inr (hhead hx')
      · exact (ih hx' hy').imp (mem_append_right _) (mem_append_right _)

/-- An instruction that is no copy keeps what it writes apart from all that is
live after it. -/
theorem mem_conflicts_of_def {i : Instruction} {d : Temp} (hcopy : i.isCopy = false)
    (hd : d ∈ i.defs) (ht : t ∈ out) : (d, t) ∈ conflicts i out := by
  have hc : copied? i = none := by
    unfold copied?
    rw [hcopy]
  unfold conflicts
  rw [hc]
  exact mem_defConflicts hd (mem_toList.mpr ht)

/-- A copy does so with one exception, what it reads. -/
theorem mem_conflicts_mov {dst src : Temp} (ht : t ∈ out) (hne : t ≠ src) :
    (dst, t) ∈ conflicts (.mov dst src) out :=
  mem_map_of_mem (mem_filter.mpr ⟨mem_toList.mpr ht, by simpa using hne⟩)

/-- A conflict is between a temp the instruction writes and one that it writes
too or that is live after it. -/
theorem of_mem_conflicts {i : Instruction} (h : p ∈ conflicts i out) :
    p.1 ∈ i.defs ∧ (p.2 ∈ out ∨ p.2 ∈ i.defs) := by
  unfold conflicts at h
  split at h
  · next dst src hc =>
    obtain ⟨t, ht, rfl⟩ := mem_map.mp h
    refine ⟨?_, .inl (mem_toList.mp (mem_filter.mp ht).1)⟩
    unfold copied? at hc
    split at hc
    · next hdefs _ =>
      cases hc
      rw [hdefs]
      exact mem_cons_self
    · cases hc
  · obtain ⟨hd, ht⟩ := of_mem_defConflicts h
    exact ⟨hd, ht.imp mem_toList.mp id⟩

end Interference

/-! ## Machines that agree on what is live -/

namespace Machine

variable {R V M E : Type} [DecidableEq R] {code : List Instruction} {live : Liveness}
  {home : Temp → R} {b : Behaviour V M E}

/-- Homes **separate** the temps in conflict. -/
def Separates (code : List Instruction) (live : Liveness) (home : Temp → R) : Prop :=
  ∀ {index : Nat} {i : Instruction}, code[index]? = some i →
    ∀ p ∈ Interference.conflicts i (live.after index), p.1 ≠ p.2 → home p.1 ≠ home p.2

/-- Two machines **match** when they are at the same place with the same memory
and every temp that is live there is in its register. -/
structure Matches (live : Liveness) (home : Temp → R) (c : Config Temp V M) (c' : Config R V M) :
    Prop where
  index_eq : c'.index = c.index
  memory_eq : c'.memory = c.memory
  regs_eq : ∀ t ∈ live.before c.index, c'.regs (home t) = c.regs t

variable {c : Config Temp V M} {c' : Config R V M} {i : Instruction}

omit [DecidableEq R] in
/-- Matching machines read the same values. -/
theorem Matches.reads_eq (h : Matches live home c c') (hlive : live.Describes code)
    (hi : code[c.index]? = some i) : c'.reads home i = c.reads id i :=
  map_congr_left fun t ht => h.regs_eq t (hlive.mem_before_of_use hi ht)

/-- Matching machines that write the same values match again. -/
theorem Matches.write (h : Matches live home c c') (hlive : live.Describes code)
    (hsep : Separates code live home) (hi : code[c.index]? = some i)
    (hcopy : i.isCopy = true → ∃ dst src, i = .mov dst src) {out : Outcome V M E} {next : Nat}
    (hacts : b.acts i.operation (c.reads id i) c.memory out)
    (harity : out.values.length = i.defs.length)
    (hgoes : continueAt code i c.index out.exit = some next) :
    Matches live home (⟨next, writeAll c.regs (i.defs.map id) out.values, out.memory⟩)
      ⟨next, writeAll c'.regs (i.defs.map home) out.values, out.memory⟩ := by
  refine ⟨rfl, rfl, fun t ht => ?_⟩
  rw [map_id]
  have hafter := hlive.mem_after hi hgoes ht
  have hkept : t ∉ i.defs → c'.regs (home t) = c.regs t :=
    fun hdefs => h.regs_eq t (hlive.mem_before_of_after hi hafter hdefs)
  cases hc : i.isCopy with
  | false =>
    exact writeAll_map c.regs c'.regs harity hkept fun d hd hne =>
      hsep hi _ (Interference.mem_conflicts_of_def hc hd hafter) hne
  | true =>
    obtain ⟨dst, src, rfl⟩ := hcopy hc
    -- the value written to the home of `dst` is the one found at the home of `src`
    have hvalue : out.values = [c.regs src] := b.mov_copies hacts
    have hsrc : c'.regs (home src) = c.regs src :=
      h.regs_eq src (hlive.mem_before_of_use hi mem_cons_self)
    rw [hvalue]
    show update c'.regs (home dst) (c.regs src) (home t) = update c.regs dst (c.regs src) t
    by_cases hdst : t = dst
    · subst hdst
      rw [update_self, update_self]
    · rw [update_of_ne hdst, ← hkept (by simpa [Instruction.mov] using hdst)]
      by_cases hshare : home t = home dst
      · rw [hshare, update_self]
        have htsrc : t = src := by
          by_contra hne
          exact hsep hi _ (Interference.mem_conflicts_mov hafter hne) (Ne.symm hdst) hshare.symm
        rw [← hshare, htsrc, hsrc]
      · rw [update_of_ne hshare]

/-- **One step of both machines.** Whatever one of them does, the other may do,
and they match again. -/
theorem Matches.step (h : Matches live home c c') (hlive : live.Describes code)
    (hsep : Separates code live home)
    (hcopies : ∀ i ∈ code, i.isCopy = true → ∃ dst src, i = .mov dst src) (out : Outcome V M E) :
    (∀ {c₁}, Step b code id c out c₁ →
      ∃ c₁', Step b code home c' out c₁' ∧ Matches live home c₁ c₁')
    ∧ ∀ {c₁'}, Step b code home c' out c₁' →
      ∃ c₁, Step b code id c out c₁ ∧ Matches live home c₁ c₁' := by
  refine ⟨?_, ?_⟩
  · rintro _ ⟨hi, hacts, harity, hgoes⟩
    refine ⟨_, .run (h.index_eq.symm ▸ hi) ?_ harity (h.index_eq.symm ▸ hgoes),
      h.write hlive hsep hi (hcopies _ (mem_of_getElem? hi)) hacts harity hgoes⟩
    rwa [h.reads_eq hlive hi, h.memory_eq]
  · rintro _ ⟨hi, hacts, harity, hgoes⟩
    rw [h.index_eq] at hi hgoes
    rw [h.reads_eq hlive hi, h.memory_eq] at hacts
    exact ⟨_, .run hi hacts harity hgoes,
      h.write hlive hsep hi (hcopies _ (mem_of_getElem? hi)) hacts harity hgoes⟩

/-- Runs that match step by step, with the same outcome of every step. -/
abbrev StepsMatch (live : Liveness) (home : Temp → R) :
    List (Config Temp V M × Outcome V M E) → List (Config R V M × Outcome V M E) → Prop :=
  List.Forall₂ fun x x' => Matches live home x.1 x'.1 ∧ x'.2 = x.2

/-- **Whole runs of both machines.** -/
theorem Matches.run (h : Matches live home c c') (hlive : live.Describes code)
    (hsep : Separates code live home)
    (hcopies : ∀ i ∈ code, i.isCopy = true → ∃ dst src, i = .mov dst src) :
    (∀ {steps c₁}, Run b code id c steps c₁ →
      ∃ steps' c₁', Run b code home c' steps' c₁' ∧ StepsMatch live home steps steps'
        ∧ Matches live home c₁ c₁')
    ∧ ∀ {steps' c₁'}, Run b code home c' steps' c₁' →
      ∃ steps c₁, Run b code id c steps c₁ ∧ StepsMatch live home steps steps'
        ∧ Matches live home c₁ c₁' := by
  refine ⟨fun {steps c₁} hrun => ?_, fun {steps' c₁'} hrun => ?_⟩
  · induction hrun generalizing c' with
    | nil c => exact ⟨[], c', .nil c', .nil, h⟩
    | cons head _ ih =>
      obtain ⟨c₂', head', h₂⟩ := (h.step hlive hsep hcopies _).1 head
      obtain ⟨steps', c₁', tail', hsteps, hend⟩ := ih h₂
      exact ⟨_, c₁', .cons head' tail', .cons ⟨h, rfl⟩ hsteps, hend⟩
  · induction hrun generalizing c with
    | nil c' => exact ⟨[], c, .nil c, .nil, h⟩
    | cons head' _ ih =>
      obtain ⟨c₂, head, h₂⟩ := (h.step hlive hsep hcopies _).2 head'
      obtain ⟨steps, c₁, tail, hsteps, hend⟩ := ih h₂
      exact ⟨_, c₁, .cons head tail, .cons ⟨h, rfl⟩ hsteps, hend⟩

end Machine

/-! ## The homes of a colouring -/

/-- Where a machine with `k` registers and a frame pointer keeps a value. -/
inductive Home (k : Nat) where
  | framePointer
  | register (c : Fin k)
  deriving DecidableEq, Repr

namespace Coloring

/-- The home of a temp: the frame pointer stays what it is, any other temp goes
to the register of its colour. -/
def home? (c : Coloring) (k : Nat) (t : Temp) : Option (Home k) :=
  if t.isFramePointer then some .framePointer
  else c.colors[t]?.bind fun color => if h : color < k then some (.register ⟨color, h⟩) else none

/-- The home of a temp that has one. -/
def home (c : Coloring) (k : Nat) (t : Temp) : Home k := (c.home? k t).getD .framePointer

theorem home?_framePointer (c : Coloring) (k : Nat) (ht : t.isFramePointer = true) :
    c.home? k t = some .framePointer :=
  if_pos ht

theorem home_eq_of_home? {c : Coloring} {k : Nat} {h : Home k} (ht : c.home? k t = some h) :
    c.home k t = h := by
  rw [home, ht]
  rfl

end Coloring

namespace Interference

variable {code : List Instruction} {live : Liveness} {k : Nat} {avoid : TempSet}

/-- A colouring without spills gives every temp of the code a register, that of
its node's colour. -/
theorem home?_eq_register (hspilled : ((build code live k).colorAvoiding k avoid).1.spilled = [])
    {i : Instruction} (hi : i ∈ code) (ht : t ∈ i.uses ++ i.defs) (hfp : t.isFramePointer = false) :
    ∃ (n c : Nat) (hc : c < k), (build code live k).index? t = some n
      ∧ ((build code live k).finalColors k avoid).getD n .unset = .color c
      ∧ ((build code live k).colorAvoiding k avoid).1.home? k t = some (.register ⟨c, hc⟩) := by
  obtain ⟨n, hn⟩ := Option.isSome_iff_exists.mp (isSome_index?_build code live k hi ht hfp)
  obtain ⟨c, hc, hfinal, hcolor⟩ := exists_color_of_spilled_eq_nil (nodes_build code live k)
    (wellFormed_build code live k) hspilled hn
  refine ⟨n, c, hc, hn, hfinal, ?_⟩
  unfold Coloring.home?
  rw [hfp, hcolor]
  simp [hc]

/-- No two nodes are pinned to one register, when all temps belong to one
session. -/
theorem pinned_distinct {s : Session} (howned : ∀ i ∈ code, i.OwnedBy s) {i j : Nat}
    {n m : InterferenceNode} {r : Register} (hn : (build code live k).nodes[i]? = some n)
    (hm : (build code live k).nodes[j]? = some m) (hnr : n.temp.pinned? = some r)
    (hmr : m.temp.pinned? = some r) : i = j := by
  have howns : ∀ {t}, t ∈ mentions code → s.Owns t := by
    intro t ht
    obtain ⟨i, hi, ht⟩ := mem_flatMap.mp ht
    exact howned i hi t ht
  refine (nodes_build code live k).distinct hn hm ?_
  rw [(howns (temp_mem_of_build code live k hn)).eq_fixed hnr,
    (howns (temp_mem_of_build code live k hm)).eq_fixed hmr]

/-- Temps in conflict are joined by an edge. -/
theorem adjacent_of_conflict (hlive : live.Describes code) {index : Nat} {i : Instruction}
    (hi : code[index]? = some i) (hp : p ∈ conflicts i (live.after index)) (hne : p.1 ≠ p.2)
    {n m : Nat} (hn : (build code live k).index? p.1 = some n)
    (hm : (build code live k).index? p.2 = some m) : m ∈ (build code live k).adjacent n := by
  have hnm : n ≠ m := by
    rintro rfl
    obtain ⟨x, hx, hxt⟩ := exists_node_of_index? hn
    obtain ⟨y, hy, hyt⟩ := exists_node_of_index? hm
    obtain rfl := Option.some.inj (hx.symm.trans hy)
    exact hne (hxt.symm.trans hyt)
  refine (mem_adjacent_build code live k n m).mpr
    ⟨(i, live.after index), mem_of_getElem? (i := index) ?_, p, hp, hnm, .inl ⟨hn, hm⟩⟩
  have hlt : index < live.liveOut.size := by
    rw [hlive.size_eq]
    exact (List.getElem?_eq_some_iff.mp hi).1
  rw [List.getElem?_zip_eq_some]
  refine ⟨hi, ?_⟩
  rw [Array.getElem?_toList, Array.getElem?_eq_getElem hlt, Liveness.after,
    Array.getD_eq_getD_getElem?, Array.getElem?_eq_getElem hlt]
  rfl

/-- **A colouring without spills separates** the temps in conflict. -/
theorem separates_home {s : Session} (howned : ∀ i ∈ code, i.OwnedBy s)
    (hlive : live.Describes code)
    (hspilled : ((build code live k).colorAvoiding k avoid).1.spilled = []) :
    Machine.Separates code live (((build code live k).colorAvoiding k avoid).1.home k) := by
  intro index i hi p hp hne
  have hcode := mem_of_getElem? hi
  obtain ⟨hdef, hother⟩ := of_mem_conflicts hp
  have hmem := mem_append_right i.uses hdef
  obtain ⟨j, hj, hmem'⟩ : ∃ j ∈ code, p.2 ∈ j.uses ++ j.defs := by
    -- what is live is read somewhere in the code
    obtain hout | hdefs := hother
    · obtain ⟨j, hj, huse⟩ := hlive.used hout
      exact ⟨j, hj, mem_append_left _ huse⟩
    · exact ⟨i, hcode, mem_append_right _ hdefs⟩
  -- the frame pointer has a home of its own, apart from all registers
  cases hfp : p.1.isFramePointer with
  | true =>
    rw [home_eq_of_home? (Coloring.home?_framePointer _ k hfp)]
    cases hfp' : p.2.isFramePointer with
    | true =>
      have heq := (howned i hcode _ hmem).eq_framePointer hfp
      exact absurd (heq.trans ((howned j hj _ hmem').eq_framePointer hfp').symm) hne
    | false =>
      obtain ⟨_, _, _, _, _, hsome⟩ := home?_eq_register hspilled hj hmem' hfp'
      rw [home_eq_of_home? hsome]
      exact fun h => Home.noConfusion rfl (heq_of_eq h)
  | false =>
    obtain ⟨n, c, hc, hn, hfinal, hsome⟩ := home?_eq_register hspilled hcode hmem hfp
    rw [home_eq_of_home? hsome]
    cases hfp' : p.2.isFramePointer with
    | true =>
      rw [home_eq_of_home? (Coloring.home?_framePointer _ k hfp')]
      exact fun h => Home.noConfusion rfl (heq_of_eq h)
    | false =>
      obtain ⟨m, c', hc', hm, hfinal', hsome'⟩ := home?_eq_register hspilled hj hmem' hfp'
      rw [home_eq_of_home? hsome']
      have hcolors := finalColors_ne_of_adjacent (nodes_build code live k)
        (wellFormed_build code live k) (pinned_distinct howned)
        (adjacent_of_conflict hlive hi hp hne hn hm) hfinal
      simp only [ne_eq, Home.register.injEq, Fin.mk.injEq]
      rintro rfl
      exact hcolors hfinal'

end Interference

/-- **Register assignment preserves execution.** If nothing but the frame pointer
is live where the code is entered and colouring with `k` colours spills nothing,
then every temp of the code has a home among `k` registers and the frame
pointer, and the code runs there as it runs with a register for every temp:
every run of one machine is matched by a run of the other, through the same
instructions, with the same memory and the same outcomes – events among them –
and with every live temp in its register before each instruction. -/
theorem coloring_preserves_runs {code : List Instruction} {s u v : Session} {live : Liveness}
    {k : Nat} {avoid : TempSet} (howned : ∀ i ∈ code, i.OwnedBy s)
    (hlive : (Liveness.analyze code).run.run u = (.ok live, v))
    (hentry : ∀ t ∈ live.before 0, t = .framePointer)
    (hcopies : ∀ i ∈ code, i.isCopy = true → ∃ dst src, i = .mov dst src)
    (hspilled : ((Interference.build code live k).colorAvoiding k avoid).1.spilled = []) :
    let coloring := ((Interference.build code live k).colorAvoiding k avoid).1
    (∀ i ∈ code, ∀ t ∈ i.uses ++ i.defs, coloring.home? k t = some (coloring.home k t)) ∧
    ∀ {V M E : Type} (b : Machine.Behaviour V M E) (memory : M) (regs : Temp → V)
      (regs' : Home k → V), regs' .framePointer = regs .framePointer →
      (∀ {steps c}, Machine.Run b code id ⟨0, regs, memory⟩ steps c →
        ∃ steps' c', Machine.Run b code (coloring.home k) ⟨0, regs', memory⟩ steps' c'
          ∧ Machine.StepsMatch live (coloring.home k) steps steps'
          ∧ Machine.Matches live (coloring.home k) c c') ∧
      ∀ {steps' c'}, Machine.Run b code (coloring.home k) ⟨0, regs', memory⟩ steps' c' →
        ∃ steps c, Machine.Run b code id ⟨0, regs, memory⟩ steps c
          ∧ Machine.StepsMatch live (coloring.home k) steps steps'
          ∧ Machine.Matches live (coloring.home k) c c' := by
  intro coloring
  have hdescribes := Liveness.describes_of_analyze hlive
  refine ⟨fun i hi t ht => ?_, fun b memory regs regs' hfp => ?_⟩
  · cases ht' : t.isFramePointer with
    | true =>
      have hsome := coloring.home?_framePointer k ht'
      rw [hsome, home_eq_of_home? hsome]
    | false =>
      obtain ⟨_, _, _, _, _, hsome⟩ := Interference.home?_eq_register hspilled hi ht ht'
      rw [hsome, home_eq_of_home? hsome]
  · have hstart : Machine.Matches live (coloring.home k) (⟨0, regs, memory⟩ : Machine.Config _ _ _)
        ⟨0, regs', memory⟩ := by
      refine ⟨rfl, rfl, fun t ht => ?_⟩
      rw [hentry t ht]
      exact hfp
    exact hstart.run hdescribes (Interference.separates_home howned hdescribes hspilled) hcopies

/-- Adds the numbers from `n` down to one to the number it was given: `n` and
the sum are live together, and the sum is returned in `eax`. -/
def sumLoop : List Instruction := let n : Temp := ⟨7, .plain "n"⟩
  let sum : Temp := ⟨8, .plain "sum"⟩
  [.enter [n], .mov sum n, .label ⟨"again"⟩, .binary .add sum n, .binaryImm .sub n 1,
    .cmpImm n 0, .jump .jg ⟨"again"⟩, .mov (.fixed .eax) sum, .ret [.fixed .eax]]

/-- Two registers are enough for the loop, the sum and `eax` sharing one. -/
theorem coloring_preserves_runs_sumLoop :
    ∃ live s, (Liveness.analyze sumLoop).run.run {} = (.ok live, s) ∧
      let coloring := ((Interference.build sumLoop live 2).colorAvoiding 2 ∅).1
      coloring.spilled = [] ∧
      coloring.home 2 ⟨8, .plain "sum"⟩ = coloring.home 2 (.fixed .eax) ∧
      coloring.home 2 ⟨7, .plain "n"⟩ ≠ coloring.home 2 (.fixed .eax) ∧
      ∀ {V M E : Type} (b : Machine.Behaviour V M E) (memory : M) (regs : Temp → V)
        (regs' : Home 2 → V), regs' .framePointer = regs .framePointer →
        ∀ {steps c}, Machine.Run b sumLoop id ⟨0, regs, memory⟩ steps c →
          ∃ steps' c', Machine.Run b sumLoop (coloring.home 2) ⟨0, regs', memory⟩ steps' c'
            ∧ Machine.StepsMatch live (coloring.home 2) steps steps'
            ∧ Machine.Matches live (coloring.home 2) c c' := by
  refine ⟨_, _, rfl, by decide +kernel, by decide +kernel, by decide +kernel, ?_⟩
  intro V M E b memory regs regs' hfp
  refine ((coloring_preserves_runs (s := .ofTemps ["n", "sum"]) (u := {}) ?_ rfl ?_ ?_ ?_).2 b memory
    regs regs' hfp).1
  · decide
  · have hnone : ∀ {live : TempSet}, live.isEmpty = true → ∀ t ∈ live, t = .framePointer :=
      fun h t ht => absurd (isEmpty_iff.mp h ▸ ht) not_mem_empty
    exact hnone (by decide +kernel)
  · have hmov : ∀ i ∈ sumLoop, i.isCopy = true →
        i = .mov (i.defs.headD .framePointer) (i.uses.headD .framePointer) := by decide
    exact fun i hi hcopy => ⟨_, _, hmov i hi hcopy⟩
  · decide +kernel

end TreeBackend
