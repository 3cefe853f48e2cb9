import TreeBackend.Proofs.Machine
import Mathlib.Data.List.Forall2

/-!
# The control flow of code

`Flow.ofCode` gives every instruction a node. This module says what is in the
nodes – the temps read and written, the successors, and the predecessors as
the successors read backwards – and that a machine running the code only ever
goes from a node to one of its successors or out of the code.
-/

namespace TreeBackend

open List

/-- A mapping that never fails maps every element. -/
theorem Except.forall₂_of_mapM {ε α β : Type} {f : α → Except ε β} {as : List α} {bs : List β}
    (h : as.mapM f = .ok bs) : List.Forall₂ (fun a b => f a = .ok b) as bs := by
  induction as generalizing bs with
  | nil =>
    cases h
    exact .nil
  | cons a as ih =>
    rw [mapM_cons] at h
    cases ha : f a with
    | error e =>
      rw [ha] at h
      cases h
    | ok b =>
      cases has : as.mapM f with
      | error e =>
        rw [ha, has] at h
        cases h
      | ok bs' =>
        rw [ha, has] at h
        cases h
        exact .cons ha (ih has)

namespace Flow

variable {code : List Instruction}

/-- Adding targets to successors adds the places of the targets. -/
theorem mem_of_foldlM_addTarget {targets : List Label} {succ succ' : List Nat}
    (h : targets.foldlM (addTarget code) succ = .ok succ') (j : Nat) :
    j ∈ succ' ↔ j ∈ succ ∨ ∃ l ∈ targets, labelIndex? code l = some j := by
  induction targets generalizing succ with
  | nil =>
    cases h
    simp
  | cons l targets ih =>
    rw [foldlM_cons] at h
    cases hl : labelIndex? code l with
    | none =>
      simp only [addTarget, hl] at h
      cases h
    | some index =>
      simp only [addTarget, hl] at h
      rw [ih h]
      have hmem : j ∈ (if index ∈ succ then succ else succ ++ [index]) ↔ j ∈ succ ∨ j = index := by
        split
        · next hin =>
          refine ⟨Or.inl, fun hj => hj.elim id fun hj => hj ▸ hin⟩
        · simp
      rw [hmem]
      simp only [mem_cons, exists_eq_or_imp, hl, Option.some.injEq, or_assoc, eq_comm (a := j)]

variable {index : Nat} {flow : List FlowNode}

/-- The **successors** of an instruction are the one after it, if control may
go straight on, and the places of its targets. -/
theorem mem_successors {i : Instruction} {succ : List Nat} (h : successors code i index = .ok succ)
    (j : Nat) :
    j ∈ succ ↔ (i.opcode.fallsThrough = true ∧ j = index + 1 ∧ j < code.length)
      ∨ ∃ l ∈ i.targets, labelIndex? code l = some j := by
  rw [mem_of_foldlM_addTarget h]
  refine or_congr_left ?_
  split
  · next hc =>
    simp only [Bool.and_eq_true, decide_eq_true_eq] at hc
    simp only [mem_singleton]
    exact ⟨fun hj => ⟨hc.1, hj, hj ▸ hc.2⟩, fun hj => hj.2.1⟩
  · next hc =>
    simp only [Bool.and_eq_true, decide_eq_true_eq] at hc
    simp only [not_mem_nil, false_iff]
    rintro ⟨hf, rfl, hj⟩
    exact hc ⟨hf, hj⟩

/-- What the nodes of a control flow are made of. -/
structure Describes (code : List Instruction) (flow : List FlowNode) : Prop where
  length_eq : flow.length = code.length
  node : ∀ {index : Nat} {i : Instruction}, code[index]? = some i →
    ∃ n, flow[index]? = some n ∧ n.uses = TempSet.ofList i.uses ∧ n.defs = TempSet.ofList i.defs
      ∧ successors code i index = .ok n.succ
  mem_pred : ∀ {index : Nat} {n : FlowNode}, flow[index]? = some n →
    ∀ m, m ∈ n.pred ↔ ∃ p, flow[m]? = some p ∧ index ∈ p.succ

/-- The nodes with `index` among their successors. -/
theorem mem_predecessors {succ : List (List Nat)} {m : Nat} :
    m ∈ predecessors succ index ↔ ∃ js, succ[m]? = some js ∧ index ∈ js := by
  unfold predecessors
  simp only [mem_map, mem_filter, decide_eq_true_eq]
  constructor
  · rintro ⟨⟨js, m'⟩, ⟨hz, hin⟩, rfl⟩
    exact ⟨js, mem_zipIdx_iff_getElem?.mp hz, hin⟩
  · rintro ⟨js, hjs, hin⟩
    exact ⟨(js, m), ⟨mem_zipIdx_iff_getElem?.mpr hjs, hin⟩, rfl⟩

/-- The node of one instruction, given the successors of all of them. -/
def nodeOf (succ : List (List Nat)) (i : Instruction) (js : List Nat) (index : Nat) : FlowNode where
  uses := TempSet.ofList i.uses
  defs := TempSet.ofList i.defs
  succ := js
  pred := predecessors succ index
  isCopy := i.isCopy

/-- A control flow that was found has the node of every instruction at its
place. -/
theorem ofCode_eq_ok (h : ofCode code = .ok flow) :
    ∃ succ, List.Forall₂ (fun entry js => successors code entry.1 entry.2 = .ok js) code.zipIdx succ
      ∧ ∀ index, flow[index]?
        = (code.zip succ)[index]?.map fun entry => nodeOf succ entry.1 entry.2 index := by
  unfold ofCode at h
  split at h
  · cases h
  · cases hs : code.zipIdx.mapM fun entry => successors code entry.1 entry.2 with
    | error e =>
      rw [hs] at h
      cases h
    | ok succ =>
      rw [hs] at h
      cases h
      refine ⟨succ, Except.forall₂_of_mapM hs, fun index => ?_⟩
      rw [List.getElem?_map, List.getElem?_zipIdx, Option.map_map, Nat.zero_add]
      rfl

/-- **The control flow describes the code.** -/
theorem describes_of_ofCode (h : ofCode code = .ok flow) : Describes code flow := by
  obtain ⟨succ, hall, hget⟩ := ofCode_eq_ok h
  have hlen : succ.length = code.length := by rw [← hall.length_eq, length_zipIdx]
  have hsucc : ∀ {m : Nat} {js : List Nat}, succ[m]? = some js → ∃ i, code[m]? = some i := by
    intro m js hjs
    have hlt : m < code.length := hlen ▸ (List.getElem?_eq_some_iff.mp hjs).1
    exact ⟨code[m], List.getElem?_eq_getElem hlt⟩
  -- as many nodes as instructions; a node's own data; and who comes before it
  refine ⟨?_, fun {index i} hi => ?_, fun {index n} hn m => ?_⟩
  · refine Nat.le_antisymm (List.getElem?_eq_none_iff.mp ?_) (List.getElem?_eq_none_iff.mp ?_)
    · rw [hget, List.getElem?_eq_none (by rw [length_zip]; omega)]
      rfl
    · have hnone : flow[flow.length]? = none := List.getElem?_eq_none (Nat.le_refl _)
      rw [hget, Option.map_eq_none_iff, List.getElem?_eq_none_iff, length_zip] at hnone
      exact List.getElem?_eq_none (by omega)
  · have hlt : index < code.length := (List.getElem?_eq_some_iff.mp hi).1
    have hlt' : index < succ.length := hlen ▸ hlt
    obtain ⟨js, hjs⟩ : ∃ js, succ[index]? = some js := ⟨_, List.getElem?_eq_getElem hlt'⟩
    refine ⟨nodeOf succ i js index, ?_, rfl, rfl, ?_⟩
    · rw [hget, List.getElem?_zip_eq_some (z := (i, js)) |>.mpr ⟨hi, hjs⟩]
      rfl
    · have hrel := hall.get (i := index) (by simpa using hlt) hlt'
      obtain ⟨_, rfl⟩ := List.getElem?_eq_some_iff.mp hi
      obtain ⟨_, rfl⟩ := List.getElem?_eq_some_iff.mp hjs
      simpa [nodeOf] using hrel
  · have hpred : n.pred = predecessors succ index := by
      rw [hget, Option.map_eq_some_iff] at hn
      obtain ⟨entry, _, rfl⟩ := hn
      rfl
    rw [hpred, mem_predecessors]
    constructor
    · rintro ⟨js, hjs, hin⟩
      obtain ⟨i, hi⟩ := hsucc hjs
      refine ⟨nodeOf succ i js m, ?_, hin⟩
      rw [hget, List.getElem?_zip_eq_some (z := (i, js)) |>.mpr ⟨hi, hjs⟩]
      rfl
    · rintro ⟨p, hp, hin⟩
      rw [hget, Option.map_eq_some_iff] at hp
      obtain ⟨⟨i, js⟩, hij, rfl⟩ := hp
      exact ⟨js, (List.getElem?_zip_eq_some.mp hij).2, hin⟩

/-- **Control follows the flow.** Where a machine goes from an instruction is
a successor of its node, unless it goes out of the code. -/
theorem mem_succ_of_continueAt (hd : Describes code flow) {next : Nat} {i : Instruction}
    {exit : Machine.Exit} (hi : code[index]? = some i)
    (h : Machine.continueAt code i index exit = some next) {n : FlowNode}
    (hn : flow[index]? = some n) : next ∈ n.succ ∨ code.length ≤ next := by
  obtain ⟨n', hn', _, _, hsucc⟩ := hd.node hi
  rw [hn] at hn'
  cases hn'
  rw [mem_successors hsucc]
  cases exit with
  | next =>
    simp only [Machine.continueAt, Option.ite_none_right_eq_some, Option.some.injEq] at h
    obtain ⟨hf, rfl⟩ := h
    by_cases hlt : index + 1 < code.length
    · exact .inl (.inl ⟨hf, rfl, hlt⟩)
    · exact .inr (Nat.not_lt.mp hlt)
  | target k =>
    obtain ⟨l, hl, hidx⟩ := Option.bind_eq_some_iff.mp h
    exact .inl (.inr ⟨l, mem_of_getElem? hl, hidx⟩)
  | leave =>
    cases h
    exact .inr (Nat.le_refl _)

end Flow

end TreeBackend
