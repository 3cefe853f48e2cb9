import TreeBackend.Proofs.Footprints
import TreeBackend.Proofs.LivePaths
import Mathlib.Data.Set.Basic

/-!
# Temps that are assigned before they are read

A temp is *assigned* at a place if every way of getting there has written it.
To see that code reads only what is assigned it is enough to go through it once,
from top to bottom, with a **promise** for every label: the temps that are
assigned wherever control comes to it. A jump has to keep the promise of its
target, and so has the code that runs into a label; what comes after the label
may rely on the promise and on nothing else. `Flows promise known fs known'`
says that this works out for the footprints `fs`, if `known` is assigned before
them, and that `known'` is assigned after them.

No path is mentioned in this, and yet it is about all of them: what is live
before the first instruction is assigned before it (`Flows.of_readAhead`).

Promises are made for all labels at once. For code that is put together from
parts, `Body.Assigns` says what a part asks of the labels that lie outside of it.
-/

namespace TreeBackend

open List

namespace Footprint

variable {promise promise' : Label → Set Temp} {known known' known'' : Set Temp}

/-! ## One footprint -/

/-- What is assigned at a footprint: what the label it places promises, and
otherwise what was assigned before it. -/
def arrive (promise : Label → Set Temp) (known : Set Temp) (f : Footprint) : Set Temp :=
  match f.label? with
  | some l => promise l
  | none => known

/-- What is assigned after a footprint. -/
def leave (promise : Label → Set Temp) (known : Set Temp) (f : Footprint) : Set Temp :=
  f.arrive promise known ∪ {t | t ∈ f.writes}

/-- The footprint is **safe** where `known` is assigned: it reads what is
assigned, nothing if it places a label, and it keeps the promises of the label
it places and of the labels it jumps to. -/
structure Safe (promise : Label → Set Temp) (known : Set Temp) (f : Footprint) : Prop where
  arrives : f.arrive promise known ⊆ known
  reads : ∀ t ∈ f.reads, t ∈ f.arrive promise known
  bare : f.label? ≠ none → f.reads = []
  targets : ∀ l ∈ f.targets, promise l ⊆ f.leave promise known

variable {f : Footprint} {fs gs : List Footprint}

theorem arrive_of_none (h : f.label? = none) : f.arrive promise known = known := by
  unfold arrive
  rw [h]

theorem arrive_of_some {l : Label} (h : f.label? = some l) :
    f.arrive promise known = promise l := by
  unfold arrive
  rw [h]

theorem arrive_mono (h : known ⊆ known') (f : Footprint) :
    f.arrive promise known ⊆ f.arrive promise known' := by
  cases hl : f.label? with
  | none => rwa [arrive_of_none hl, arrive_of_none hl]
  | some l => rw [arrive_of_some hl, arrive_of_some hl]

theorem leave_mono (h : known ⊆ known') (f : Footprint) :
    f.leave promise known ⊆ f.leave promise known' :=
  Set.union_subset_union_left _ (arrive_mono h f)

/-- Where no label is placed, no promise is looked at but those of targets. -/
theorem safe_of_none (hlabel : f.label? = none) (hreads : ∀ t ∈ f.reads, t ∈ known)
    (htargets : ∀ l ∈ f.targets, promise l ⊆ f.leave promise known) : f.Safe promise known where
  arrives := (arrive_of_none hlabel).subset
  reads := by rwa [arrive_of_none hlabel]
  bare := fun h => absurd hlabel h
  targets := htargets

theorem Safe.mono (h : f.Safe promise known) (hsub : known ⊆ known') : f.Safe promise known' where
  arrives := by
    cases hl : f.label? with
    | none => rw [arrive_of_none hl]
    | some l =>
      have harrives := h.arrives
      rw [arrive_of_some hl] at harrives ⊢
      exact harrives.trans hsub
  reads t ht := arrive_mono hsub f (h.reads t ht)
  bare := h.bare
  targets l hl := (h.targets l hl).trans (leave_mono hsub f)

/-! ## Footprints one after the other -/

/-- **Every read finds its temp assigned**: with `known` assigned before the
footprints, all of them are safe, and `known'` is assigned after them. -/
inductive Flows (promise : Label → Set Temp) : Set Temp → List Footprint → Set Temp → Prop where
  | nil {known known' : Set Temp} (h : known' ⊆ known) : Flows promise known [] known'
  | cons {f : Footprint} {fs : List Footprint} {known known' : Set Temp}
      (safe : f.Safe promise known) (rest : Flows promise (f.leave promise known) fs known') :
      Flows promise known (f :: fs) known'

namespace Flows

/-- It does no harm if more is assigned before … -/
theorem mono (h : Flows promise known fs known'') (hsub : known ⊆ known') :
    Flows promise known' fs known'' := by
  induction h generalizing known' with
  | nil h => exact .nil (h.trans hsub)
  | cons safe _ ih => exact .cons (safe.mono hsub) (ih (leave_mono hsub _))

/-- … or if less is asked for after. -/
theorem weaken (h : Flows promise known fs known') (hsub : known'' ⊆ known') :
    Flows promise known fs known'' := by
  induction h with
  | nil h => exact .nil (hsub.trans h)
  | cons safe _ ih => exact .cons safe (ih hsub)

theorem append (h : Flows promise known fs known') (h' : Flows promise known' gs known'') :
    Flows promise known (fs ++ gs) known'' := by
  induction h with
  | nil h => exact h'.mono h
  | cons safe _ ih => exact .cons safe (ih h')

theorem singleton (safe : f.Safe promise known) : Flows promise known [f] (f.leave promise known) :=
  .cons safe (.nil subset_rfl)

/-- What is read was assigned at the start, or is written somewhere. -/
theorem mem_of_read (h : Flows promise known fs known') {g : Footprint} (hg : g ∈ fs) {t : Temp}
    (ht : t ∈ g.reads) : t ∈ known ∨ ∃ f ∈ fs, t ∈ f.writes := by
  induction h with
  | nil => cases hg
  | @cons f fs known known' safe _ ih =>
    obtain rfl | hg := mem_cons.mp hg
    · exact .inl (safe.arrives (safe.reads t ht))
    · obtain (ht | ht) | ⟨f', hf', ht⟩ := ih hg
      · exact .inl (safe.arrives ht)
      · exact .inr ⟨f, mem_cons_self, ht⟩
      · exact .inr ⟨f', mem_cons_of_mem _ hf', ht⟩

end Flows

/-! ## Paths -/

/-- What is assigned at each footprint of a list. -/
def assignedAt (promise : Label → Set Temp) : Set Temp → List Footprint → Nat → Set Temp
  | known, [], _ => known
  | known, f :: _, 0 => f.arrive promise known
  | known, f :: fs, n + 1 => assignedAt promise (f.leave promise known) fs n

/-- The footprint at `n` is safe where it stands, and what it leaves assigned is
assigned at the next one. -/
theorem Flows.at_index (h : Flows promise known fs known') {n : Nat} {f : Footprint}
    (hn : fs[n]? = some f) :
    (∀ t ∈ f.reads, t ∈ assignedAt promise known fs n)
      ∧ (∀ l, f.label? = some l → assignedAt promise known fs n = promise l)
      ∧ (∀ l ∈ f.targets, promise l ⊆ assignedAt promise known fs n ∪ {t | t ∈ f.writes})
      ∧ (n + 1 < fs.length → assignedAt promise known fs (n + 1)
          ⊆ assignedAt promise known fs n ∪ {t | t ∈ f.writes}) := by
  induction h generalizing n with
  | nil => cases hn
  | @cons g fs known known' safe rest ih =>
    cases n with
    | zero =>
      obtain rfl : g = f := Option.some.inj hn
      refine ⟨safe.reads, fun l hl => arrive_of_some hl, safe.targets, fun hlt => ?_⟩
      cases rest with
      | nil => exact absurd hlt (by simp)
      | cons safe' _ => exact safe'.arrives
    | succ n =>
      obtain ⟨hreads, hlabel, htargets, hnext⟩ := ih hn
      exact ⟨hreads, hlabel, htargets, fun hlt => hnext (Nat.lt_of_succ_lt_succ hlt)⟩

/-- Nothing else is assigned at the first footprint than before it. -/
theorem Flows.assignedAt_zero (h : Flows promise known fs known') :
    assignedAt promise known fs 0 ⊆ known := by
  cases h with
  | nil => exact subset_rfl
  | cons safe _ => exact safe.arrives

/-- **What is read ahead is assigned.** A temp that some path from the start of
the code reads, with no write before, was assigned at the start. -/
theorem Flows.of_readAhead {code : List Instruction} {flow : List FlowNode}
    (h : Flows promise known (code.map Instruction.footprint) known')
    (hflow : Flow.ofCode code = .ok flow) {t : Temp}
    (ht : Liveness.ReadAhead flow.toArray t 0) : t ∈ known := by
  have hdescribes := Flow.describes_of_ofCode hflow
  -- each node of the path stands for an instruction
  have hnode : ∀ {n : Nat} {node : FlowNode}, flow.toArray[n]? = some node →
      ∃ i, code[n]? = some i ∧ node.uses = TempSet.ofList i.uses
        ∧ node.defs = TempSet.ofList i.defs ∧ Flow.successors code i n = .ok node.succ := by
    intro n node hn
    rw [List.getElem?_toArray] at hn
    have hlt : n < code.length := hdescribes.length_eq ▸ (List.getElem?_eq_some_iff.mp hn).1
    obtain ⟨node', hn', huses, hdefs, hsucc⟩ := hdescribes.node (List.getElem?_eq_getElem hlt)
    obtain rfl := Option.some.inj (hn.symm.trans hn')
    exact ⟨code[n], List.getElem?_eq_getElem hlt, huses, hdefs, hsucc⟩
  have hat : ∀ {n : Nat} {i : Instruction}, code[n]? = some i →
      (code.map Instruction.footprint)[n]? = some i.footprint := fun hi => by
    rw [List.getElem?_map, hi]
    rfl
  have hahead : ∀ {n : Nat}, Liveness.ReadAhead flow.toArray t n →
      t ∈ assignedAt promise known (code.map Instruction.footprint) n := by
    intro n ht
    induction ht with
    | read hn ht =>
      obtain ⟨i, hi, huses, -⟩ := hnode hn
      exact (h.at_index (hat hi)).1 t (TempSet.mem_ofList.mp (huses ▸ ht))
    | @pass n s node hn ht hs _ ih =>
      obtain ⟨i, hi, -, hdefs, hsucc⟩ := hnode hn
      have hdef : t ∉ i.defs := fun hmem => ht (hdefs ▸ TempSet.mem_ofList.mpr hmem)
      obtain ⟨-, -, htargets, hnext⟩ := h.at_index (hat hi)
      obtain ⟨-, rfl, hlt⟩ | ⟨l, hl, hindex⟩ := (Flow.mem_successors hsucc s).mp hs
      · exact (hnext (by rwa [length_map]) ih).resolve_right hdef
      · -- at the target its label's promise is all that is assigned
        obtain ⟨hs', hlabel, -⟩ := List.findIdx?_eq_some_iff_getElem.mp hindex
        have harrived := (h.at_index (hat (List.getElem?_eq_getElem hs'))).2.1 l
          (of_decide_eq_true hlabel)
        rw [harrived] at ih
        exact (htargets l hl ih).resolve_right hdef
  exact h.assignedAt_zero (hahead ht)

end Footprint

end TreeBackend
