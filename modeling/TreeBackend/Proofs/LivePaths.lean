import TreeBackend.Proofs.LiveSets

/-!
# What is live is read on some path

The equations of the live sets have many solutions; the sets that
`Liveness.solve` finds are the smallest one. This module says what that means
for a temp: it is live before a node exactly if some path from the node comes to
a node that reads it, and no node on the way writes it (`Liveness.ReadAhead`).

One half needs the sets to be *justified* – whatever has been put into a live
set so far has such a path – and this is kept by every visit, since a visit only
puts a node's own reads and what its successors have into its sets. The other
half needs the equations, once the queue has run empty: they carry a temp
backwards along its path. The same walk shows that every other solution has at
least these temps.

The bound on the number of visits plays no part in the result: the loop that
visits nodes until none waits comes to an end (`Liveness.Drains`), and in the
same live sets.
-/

namespace TreeBackend

open List

variable {t : Temp} {n : Nat}

namespace Liveness

/-! ## Paths -/

/-- The temp is **read ahead** of the node at an index: there is a path along
successors to a node that reads it, and no node before the last one writes it. -/
inductive ReadAhead (flow : Array FlowNode) (t : Temp) : Nat → Prop where
  /-- The node itself reads the temp. -/
  | read {n : Nat} {node : FlowNode} (hn : flow[n]? = some node) (ht : t ∈ node.uses) :
      ReadAhead flow t n
  /-- The node does not write the temp, and a successor has it ahead. -/
  | pass {n s : Nat} {node : FlowNode} (hn : flow[n]? = some node) (ht : t ∉ node.defs)
      (hs : s ∈ node.succ) (ahead : ReadAhead flow t s) : ReadAhead flow t n

/-- Sets of temps before and after every node **solve the equations** of a
flow. -/
structure Solves (flow : Array FlowNode) (before after : Nat → Temp → Prop) : Prop where
  after_iff : ∀ {n : Nat} {node : FlowNode}, flow[n]? = some node →
    ∀ t, after n t ↔ ∃ s ∈ node.succ, before s t
  before_iff : ∀ {n : Nat} {node : FlowNode}, flow[n]? = some node →
    ∀ t, before n t ↔ after n t ∧ t ∉ node.defs ∨ t ∈ node.uses

/-- Every solution has what is read ahead: the equations carry it backwards
along its path. -/
theorem Solves.of_readAhead {flow : Array FlowNode} {before after : Nat → Temp → Prop}
    (h : Solves flow before after) (ht : ReadAhead flow t n) : before n t := by
  induction ht with
  | read hn ht => exact (h.before_iff hn t).mpr (.inr ht)
  | pass hn ht hs _ ih =>
    exact (h.before_iff hn t).mpr (.inl ⟨(h.after_iff hn t).mpr ⟨_, hs, ih⟩, ht⟩)

/-! ## Nothing is live without a path -/

/-- The live sets are **justified**: what they say is live is read ahead. -/
def Justified (l : Liveness) : Prop := ∀ n t, t ∈ l.before n → ReadAhead l.flow t n

theorem justified_unsolved (flow : Array FlowNode) : (unsolved flow).Justified := by
  intro n t ht
  rw [before_unsolved] at ht
  exact absurd ht Std.ExtTreeSet.not_mem_empty

variable {l : Liveness} {queue : List Nat}

/-- **A visit keeps live sets justified.** -/
theorem Justified.visit {index : Nat} (h : l.Justified) (hs : l.Sized) :
    (l.visit index queue).1.Justified := by
  obtain ⟨hv, _⟩ | ⟨node, hn, _, hv⟩ := visit_cases l index queue
  · rw [hv]
    exact h
  · rw [hv]
    intro n t ht
    rw [before_refresh hs hn] at ht
    split at ht
    · next he =>
      subst he
      obtain ⟨ht, hdef⟩ | ht := mem_transfer.mp ht
      · obtain ⟨s, hsucc, hts⟩ := mem_join.mp ht
        exact .pass hn hdef hsucc (h s t hts)
      · exact .read hn ht
    · exact h n t ht

/-! ## The loop without its bound -/

/-- The queue **drains**: visiting nodes until none waits comes to an end. -/
inductive Drains : Liveness → List Nat → Liveness → Prop where
  | done (l : Liveness) : Drains l [] l
  | visit {l l' : Liveness} {index : Nat} {queue : List Nat}
      (rest : Drains (l.visit index queue).1 (l.visit index queue).2 l') :
      Drains l (index :: queue) l'

/-- With fuel for the potential, the bounded loop is the loop without a bound. -/
theorem Pending.drains {fuel : Nat} (h : l.Pending queue) (hfuel : potential l queue ≤ fuel) :
    Drains l queue (Liveness.run fuel l queue) := by
  induction fuel generalizing l queue with
  | zero =>
    obtain rfl : queue = [] := by
      unfold potential at hfuel
      exact length_eq_zero_iff.mp (by omega)
    exact .done l
  | succ fuel ih =>
    cases queue with
    | nil => exact .done l
    | cons index queue =>
      have hlt := h.potential_visit_lt
      exact .visit (ih h.visit (by omega))

/-- What every visit keeps holds when the queue has drained. -/
theorem Drains.justified {l' : Liveness} (h : Drains l queue l') (hpend : l.Pending queue)
    (hj : l.Justified) : l'.Justified := by
  induction h with
  | done l => exact hj
  | visit _ ih => exact ih hpend.visit (hj.visit hpend.sized)

/-- What is live in code is read ahead. -/
theorem readAhead_of_mem_before {code : List Instruction} {flow : List FlowNode}
    (hflow : Flow.ofCode code = .ok flow) (ht : t ∈ (solve flow.toArray).before n) :
    ReadAhead flow.toArray t n := by
  have hlinked : Linked flow.toArray := linked_of_describes (Flow.describes_of_ofCode hflow)
  have hstart := pending_unsolved hlinked
  have hdrains : Drains (unsolved flow.toArray) (List.range flow.toArray.size).reverse
      (solve flow.toArray) := hstart.drains (Nat.le_of_eq (potential_unsolved _))
  have hahead := hdrains.justified hstart (justified_unsolved _) n t ht
  rwa [(pending_solve hlinked).2] at hahead

/-! ## The smallest solution -/

section Solution

variable {l : Liveness}

/-- Where nothing waits, the live sets solve the equations. -/
theorem Pending.solves (h : l.Pending []) :
    Solves l.flow (fun n t => t ∈ l.before n) (fun n t => t ∈ l.after n) where
  after_iff {n node} hn t := by rw [← (agrees_iff.mp (h.settled hn not_mem_nil)).1, mem_join]
  before_iff {n node} hn t := by
    obtain ⟨hafter, hbefore⟩ := agrees_iff.mp (h.settled hn not_mem_nil)
    rw [← hbefore, mem_transfer, hafter]

theorem Pending.firstViolation?_eq_none (h : l.Pending []) : l.firstViolation? = none := by
  unfold firstViolation?
  rw [Option.map_eq_none_iff, List.find?_eq_none]
  rintro ⟨node, n⟩ hmem
  rw [mem_zipIdx_iff_getElem?, Array.getElem?_toList] at hmem
  simp [h.settled hmem not_mem_nil]

/-- Nothing is live after a node that is not there. -/
theorem Pending.flow_of_mem_after (h : l.Pending []) (ht : t ∈ l.after n) :
    ∃ node, l.flow[n]? = some node := by
  by_cases hlt : n < l.flow.size
  · exact ⟨l.flow[n], Array.getElem?_eq_getElem hlt⟩
  · rw [after, Array.getD_eq_getD_getElem?,
      Array.getElem?_eq_none (h.sized.2.trans_le (Nat.le_of_not_lt hlt))] at ht
    exact absurd ht Std.ExtTreeSet.not_mem_empty

end Solution

/-- **Liveness is exact.** Where the analysis of code succeeds, the flow it used
describes the code, the queue drains, and in the live sets it ends with

* no equation is violated;
* a temp is live before a node exactly if it is read ahead of it;
* a temp is live after a node exactly if it is live before a successor;
* so every solution of the equations has all temps that are live. -/
theorem analyze_exact {code : List Instruction} {s s' : Session} {l : Liveness}
    (h : (analyze code).run.run s = (.ok l, s')) :
    Flow.Describes code l.flow.toList ∧
    Drains (unsolved l.flow) (List.range l.flow.size).reverse l ∧
    l.firstViolation? = none ∧
    (∀ n t, t ∈ l.before n ↔ ReadAhead l.flow t n) ∧
    (∀ n t, t ∈ l.after n ↔ ∃ node, l.flow[n]? = some node ∧ ∃ m ∈ node.succ, t ∈ l.before m) ∧
    Solves l.flow (fun n t => t ∈ l.before n) (fun n t => t ∈ l.after n) ∧
    ∀ before after, Solves l.flow before after →
      ∀ n t, (t ∈ l.before n → before n t) ∧ (t ∈ l.after n → after n t) := by
  obtain ⟨flow, hok, rfl⟩ := eq_solve_of_analyze h
  have hd := Flow.describes_of_ofCode hok
  have hlinked : Linked flow.toArray := linked_of_describes hd
  obtain ⟨hpend, hflow⟩ := pending_solve hlinked
  have hstart := pending_unsolved hlinked
  have hdrains : Drains (unsolved flow.toArray) (List.range flow.toArray.size).reverse
      (solve flow.toArray) := hstart.drains (Nat.le_of_eq (potential_unsolved _))
  have hjust := hdrains.justified hstart (justified_unsolved _)
  have hsolves := hpend.solves
  have hbefore : ∀ n t, t ∈ (solve flow.toArray).before n
      ↔ ReadAhead (solve flow.toArray).flow t n :=
    fun n t => ⟨hjust n t, hsolves.of_readAhead⟩
  refine ⟨?_, ?_, hpend.firstViolation?_eq_none, hbefore, fun n t => ⟨fun ht => ?_, ?_⟩, hsolves,
    fun before after hother n t => ⟨fun ht => ?_, fun ht => ?_⟩⟩
  · rw [hflow]
    exact hd
  · rw [hflow]
    exact hdrains
  · obtain ⟨node, hn⟩ := hpend.flow_of_mem_after ht
    exact ⟨node, hn, (hsolves.after_iff hn t).mp ht⟩
  · rintro ⟨node, hn, hm⟩
    exact (hsolves.after_iff hn t).mpr hm
  · exact hother.of_readAhead ((hbefore n t).mp ht)
  · obtain ⟨node, hn⟩ := hpend.flow_of_mem_after ht
    obtain ⟨m, hm, htm⟩ := (hsolves.after_iff hn t).mp ht
    exact (hother.after_iff hn t).mpr ⟨m, hm, hother.of_readAhead ((hbefore m t).mp htm)⟩

/-- Counts down from the number it was given, and then returns nothing. -/
def countdown : List Instruction := let n : Temp := ⟨7, .plain "n"⟩
  [.enter [n], .label ⟨"again"⟩, .binaryImm .sub n 1, .cmpImm n 0, .jump .jg ⟨"again"⟩, .ret []]

/-- The number is live where the loop branches, since the way back reads it, and
not where the loop is left. -/
theorem analyze_exact_countdown :
    ∃ l s, (analyze countdown).run.run {} = (.ok l, s) ∧ l.firstViolation? = none ∧
      (∀ n t, t ∈ l.before n ↔ ReadAhead l.flow t n) ∧
      ReadAhead l.flow ⟨7, .plain "n"⟩ 4 ∧ ¬ ReadAhead l.flow ⟨7, .plain "n"⟩ 5 := by
  refine ⟨_, _, rfl, ?_⟩
  have hanalyze : (analyze countdown).run.run {} = (.ok _, _) := rfl
  obtain ⟨_, _, hviolation, hbefore, _⟩ := analyze_exact hanalyze
  refine ⟨hviolation, hbefore, (hbefore 4 _).mp ?_, fun hahead => ?_⟩
  · decide +kernel
  · exact absurd ((hbefore 5 _).mpr hahead) (by decide +kernel)

end Liveness

end TreeBackend
