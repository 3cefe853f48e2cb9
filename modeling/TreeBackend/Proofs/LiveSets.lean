import TreeBackend.Code.Liveness
import TreeBackend.Proofs.FlowGraph
import Mathlib.Algebra.BigOperators.Ring.Finset

/-!
# Live sets solve their equations

`Liveness.solve` works through a queue of nodes. Two things have to be seen:
that no node is wrong while it is not waiting, so that an empty queue means
that all equations hold; and that the queue does run empty within the number
of visits `Liveness.visitBound` allows.

The first rests on the links between nodes being known from both ends: a node
whose live sets depend on a changed one is among its predecessors, and those
are sent back to the queue. The second rests on live sets only ever growing,
and never beyond the temps that some instruction reads: every visit either
takes a node off the queue for good, or uses up some of the room that the sets
of the visited node have left, as many times over as it has neighbours to send
back. `Liveness.potential` weighs the two against each other.
-/

namespace TreeBackend

open List Std.ExtTreeSet

variable {t : Temp} {n : Nat}

/-! ## Sizes of finite sets -/

section Sizes

variable {α : Type} [Ord α] [Std.TransOrd α] [Std.LawfulEqOrd α]

/-- A set has no more elements than a set it lies in. -/
theorem size_le_of_subset {a b : Std.ExtTreeSet α} (h : ∀ x ∈ a, x ∈ b) : a.size ≤ b.size := by
  have hb : b ∩ a = a := by
    ext x
    rw [Std.ExtTreeSet.mem_inter_iff]
    exact ⟨fun hx => hx.2, fun hx => ⟨h x hx, hx⟩⟩
  rw [← hb]
  exact size_inter_le_size_left

/-- A set has fewer elements than a larger set. -/
theorem size_lt_of_subset {a b : Std.ExtTreeSet α} (h : ∀ x ∈ a, x ∈ b) (hne : a ≠ b) :
    a.size < b.size := by
  have hb : b ∩ a = a := by
    ext x
    rw [Std.ExtTreeSet.mem_inter_iff]
    exact ⟨fun hx => hx.2, fun hx => ⟨h x hx, hx⟩⟩
  have hsum : (b \ a).size + (b ∩ a).size = b.size := size_diff_add_size_inter_eq_size_left
  rw [hb] at hsum
  have hdiff : (b \ a).size ≠ 0 := by
    intro hzero
    refine hne (ext_mem fun x => ⟨h x, fun hx => ?_⟩)
    by_contra hxa
    have hmem : x ∈ b \ a := mem_diff_iff.mpr ⟨hx, hxa⟩
    rw [eq_empty_iff_size_eq_zero.mpr hzero] at hmem
    exact not_mem_empty hmem
  omega

/-- A set whose elements come from the sets of a list has at most as many as
these have together. -/
theorem size_le_sum_of_forall {β : Type} (f : β → Std.ExtTreeSet α) (a : Std.ExtTreeSet α)
    (bs : List β) (h : ∀ x ∈ a, ∃ b ∈ bs, x ∈ f b) :
    a.size ≤ (bs.map fun b => (f b).size).sum := by
  have hunion : ∀ bs : List β,
      (bs.foldr (fun b s => f b ∪ s) ∅).size ≤ (bs.map fun b => (f b).size).sum := by
    intro bs
    induction bs with
    | nil => exact Nat.le_refl _
    | cons b bs ih => exact Nat.le_trans size_union_le_size_add_size (Nat.add_le_add_left ih _)
  refine Nat.le_trans (size_le_of_subset fun x hx => ?_) (hunion bs)
  obtain ⟨b, hb, hxb⟩ := h x hx
  clear h hx
  induction bs with
  | nil => simp at hb
  | cons b' bs ih =>
    rw [foldr_cons, Std.ExtTreeSet.mem_union_iff]
    obtain rfl | hb := mem_cons.mp hb
    · exact .inl hxb
    · exact .inr (ih hb)

end Sizes

theorem TempSet.mem_ofList {ts : List Temp} : t ∈ TempSet.ofList ts ↔ t ∈ ts := by
  unfold TempSet.ofList
  simp

namespace Liveness

/-! ## The equations -/

variable {l : Liveness} {node : FlowNode}

/-- Live after a node is what is live before its successors. -/
theorem mem_join : t ∈ l.join node ↔ ∃ s ∈ node.succ, t ∈ l.before s := by
  have hfold : ∀ (ss : List Nat) (out : TempSet),
      t ∈ ss.foldl (fun out s => out ∪ l.before s) out ↔ t ∈ out ∨ ∃ s ∈ ss, t ∈ l.before s := by
    intro ss
    induction ss with
    | nil => simp
    | cons s ss ih =>
      intro out
      rw [foldl_cons, ih, Std.ExtTreeSet.mem_union_iff]
      simp only [mem_cons, exists_eq_or_imp, or_assoc]
  unfold join
  rw [hfold]
  simp

/-- Live before it is what it reads, and what it does not write. -/
theorem mem_transfer {out : TempSet} :
    t ∈ transfer node out ↔ (t ∈ out ∧ t ∉ node.defs) ∨ t ∈ node.uses := by
  unfold transfer
  rw [Std.ExtTreeSet.mem_union_iff, Std.ExtTreeSet.mem_diff_iff]

/-- The live sets of a node **agree** with its equations. -/
theorem agrees_iff : l.agrees node n = true
      ↔ l.join node = l.after n ∧ transfer node (l.join node) = l.before n := by
  unfold agrees
  rw [Bool.and_eq_true, beq_iff_eq, beq_iff_eq]

/-! ## One visit -/

/-- The live sets after the sets of the node at `index` were computed anew. -/
def refresh (l : Liveness) (node : FlowNode) (index : Nat) : Liveness := { l with
    iterations := l.iterations + 1
    liveOut := l.liveOut.setIfInBounds index (l.join node)
    liveIn := l.liveIn.setIfInBounds index (transfer node (l.join node)) }

/-- A **visit** leaves the live sets alone if the node is out of range or
agrees; otherwise it computes the node's sets anew and sends its neighbours
back to the queue. -/
theorem visit_cases (l : Liveness) (index : Nat) (queue : List Nat) :
    (l.visit index queue = ({ l with iterations := l.iterations + 1 }, queue)
      ∧ ∀ node, l.flow[index]? = some node → l.agrees node index = true)
    ∨ ∃ node, l.flow[index]? = some node ∧ l.agrees node index = false ∧ l.visit index queue
        = (l.refresh node index, (node.pred ++ node.succ).foldl enqueue queue) := by
  unfold visit
  cases hn : l.flow[index]? with
  | none => refine .inl ⟨by simp only [hn], fun node h => by simp at h⟩
  | some node =>
    cases ha : l.agrees node index with
    | true =>
      refine .inl ⟨?_, fun node' h => ?_⟩
      · simp only [hn]
        exact if_pos ha
      · cases h
        exact ha
    | false =>
      refine .inr ⟨node, rfl, ha, ?_⟩
      simp only [hn]
      exact if_neg (ne_true_of_eq_false ha)

theorem mem_foldl_enqueue {ns queue : List Nat} :
    n ∈ ns.foldl enqueue queue ↔ n ∈ queue ∨ n ∈ ns := by
  induction ns generalizing queue with
  | nil => simp
  | cons m ns ih =>
    have hm : n ∈ enqueue queue m ↔ n ∈ queue ∨ n = m := by
      unfold enqueue
      split
      · next h => exact ⟨.inl, fun hn => hn.elim id fun hn => hn ▸ h⟩
      · simp
    rw [foldl_cons, ih, hm, mem_cons, or_assoc]

theorem length_foldl_enqueue_le (ns queue : List Nat) :
    (ns.foldl enqueue queue).length ≤ queue.length + ns.length := by
  induction ns generalizing queue with
  | nil => simp
  | cons m ns ih =>
    have hm : (enqueue queue m).length ≤ queue.length + 1 := by
      unfold enqueue
      split <;> simp
    have := ih (enqueue queue m)
    simp only [foldl_cons, length_cons]
    omega

section Refresh

variable {l : Liveness} {node : FlowNode} {index : Nat}

/-- The live sets have a place for every node of the flow. -/
def Sized (l : Liveness) : Prop := l.liveIn.size = l.flow.size ∧ l.liveOut.size = l.flow.size

theorem before_refresh (hs : l.Sized) (hn : l.flow[index]? = some node) (n : Nat) :
    (l.refresh node index).before n
      = if n = index then transfer node (l.join node) else l.before n := by
  have hlt : index < l.liveIn.size := hs.1 ▸ (Array.getElem?_eq_some_iff.mp hn).1
  unfold before refresh
  rw [Array.getD_eq_getD_getElem?, Array.getElem?_setIfInBounds, Array.getD_eq_getD_getElem?]
  by_cases h : index = n
  · subst h
    rw [if_pos rfl, if_pos hlt, if_pos rfl]
    rfl
  · rw [if_neg h, if_neg (Ne.symm h)]

theorem after_refresh (hs : l.Sized) (hn : l.flow[index]? = some node) (n : Nat) :
    (l.refresh node index).after n = if n = index then l.join node else l.after n := by
  have hlt : index < l.liveOut.size := hs.2 ▸ (Array.getElem?_eq_some_iff.mp hn).1
  unfold after refresh
  rw [Array.getD_eq_getD_getElem?, Array.getElem?_setIfInBounds, Array.getD_eq_getD_getElem?]
  by_cases h : index = n
  · subst h
    rw [if_pos rfl, if_pos hlt, if_pos rfl]
    rfl
  · rw [if_neg h, if_neg (Ne.symm h)]

end Refresh

/-! ## What holds between visits -/

/-- The links of a flow are known from both ends. -/
def Linked (flow : Array FlowNode) : Prop :=
  ∀ {m n : Nat} {p q : FlowNode}, flow[m]? = some p → flow[n]? = some q → n ∈ p.succ → m ∈ q.pred

/-- **The invariant of the queue.** -/
structure Pending (l : Liveness) (queue : List Nat) : Prop where
  sized : l.Sized
  linked : Linked l.flow
  /-- A node that does not wait agrees with its equations. -/
  settled : ∀ {n : Nat} {node : FlowNode}, l.flow[n]? = some node → n ∉ queue →
    l.agrees node n = true
  /-- Live sets never run ahead of their equations. -/
  after_le : ∀ {n : Nat} {node : FlowNode}, l.flow[n]? = some node →
    ∀ t ∈ l.after n, t ∈ l.join node
  before_le : ∀ {n : Nat} {node : FlowNode}, l.flow[n]? = some node →
    ∀ t ∈ l.before n, t ∈ transfer node (l.join node)
  /-- Only temps that are read somewhere are ever live. -/
  used : ∀ {n : Nat} {t : Temp}, t ∈ l.before n → ∃ node ∈ l.flow.toList, t ∈ node.uses

section Visit

variable {l : Liveness} {index : Nat} {queue : List Nat}

variable {node : FlowNode}

/-- What is live after a node is read somewhere. -/
theorem Pending.join_used (h : l.Pending queue) (ht : t ∈ l.join node) :
    ∃ node ∈ l.flow.toList, t ∈ node.uses := by
  obtain ⟨s, _, hs⟩ := mem_join.mp ht
  exact h.used hs

theorem Pending.transfer_used (h : l.Pending queue) (hn : l.flow[n]? = some node)
    (ht : t ∈ transfer node (l.join node)) : ∃ node ∈ l.flow.toList, t ∈ node.uses := by
  obtain ⟨ht, _⟩ | ht := mem_transfer.mp ht
  · exact h.join_used ht
  · exact ⟨node, Array.mem_toList_iff.mpr (Array.mem_of_getElem? hn), ht⟩

/-- Live sets grow when a node is computed anew. -/
theorem Pending.before_subset_refresh (h : l.Pending queue) (hn : l.flow[index]? = some node)
    (ht : t ∈ l.before n) : t ∈ (l.refresh node index).before n := by
  rw [before_refresh h.sized hn]
  split
  · next he =>
    subst he
    exact h.before_le hn t ht
  · exact ht

theorem Pending.join_subset_refresh (h : l.Pending queue) (hn : l.flow[index]? = some node)
    (m : FlowNode) (ht : t ∈ l.join m) : t ∈ (l.refresh node index).join m := by
  obtain ⟨s, hs, hts⟩ := mem_join.mp ht
  exact mem_join.mpr ⟨s, hs, h.before_subset_refresh hn hts⟩

/-- Only the equations of the predecessors of a node notice when its live sets
are computed anew. -/
theorem Pending.join_refresh_of_notMem (h : l.Pending queue) {m : FlowNode}
    (hn : l.flow[index]? = some node) (hm : index ∉ m.succ) :
    (l.refresh node index).join m = l.join m := by
  ext t
  rw [mem_join, mem_join]
  refine exists_congr fun s => and_congr_right fun hs => ?_
  have hne : s ≠ index := fun he => hm (he ▸ hs)
  rw [before_refresh h.sized hn, if_neg hne]

/-- **A visit keeps the invariant.** -/
theorem Pending.refresh (h : l.Pending (index :: queue)) (hn : l.flow[index]? = some node) :
    (l.refresh node index).Pending ((node.pred ++ node.succ).foldl enqueue queue) where
  sized := by
    refine ⟨?_, ?_⟩
    · exact (Array.size_setIfInBounds ..).trans h.sized.1
    · exact (Array.size_setIfInBounds ..).trans h.sized.2
  linked := h.linked
  settled := by
    intro n m hm hq
    rw [mem_foldl_enqueue, mem_append, not_or, not_or] at hq
    obtain ⟨hq, hpred, hsucc⟩ := hq
    have hindep : index ∉ m.succ := fun hin => hpred (h.linked hm hn hin)
    rw [agrees_iff, h.join_refresh_of_notMem hn hindep, before_refresh h.sized hn,
      after_refresh h.sized hn]
    by_cases he : n = index
    · -- the node visited, which does not follow itself
      subst he
      obtain rfl : m = node := Option.some.inj (Eq.trans (Eq.symm hm) hn)
      rw [if_pos rfl, if_pos rfl]
      exact ⟨rfl, rfl⟩
    · -- a node that was settled before, and sees no difference
      rw [if_neg he, if_neg he, ← agrees_iff]
      exact h.settled hm (by simp [he, hq])
  after_le := by
    intro n m hm t ht
    refine h.join_subset_refresh hn m ?_
    rw [after_refresh h.sized hn] at ht
    split at ht
    · next he =>
      subst he
      obtain rfl : m = node := Option.some.inj (Eq.trans (Eq.symm hm) hn)
      exact ht
    · exact h.after_le hm t ht
  before_le := by
    intro n m hm t ht
    have hmono : t ∈ transfer m (l.join m) → t ∈ transfer m ((l.refresh node index).join m) := by
      rw [mem_transfer, mem_transfer]
      exact Or.imp_left (And.imp_left (h.join_subset_refresh hn m))
    refine hmono ?_
    rw [before_refresh h.sized hn] at ht
    split at ht
    · next he =>
      subst he
      obtain rfl : m = node := Option.some.inj (Eq.trans (Eq.symm hm) hn)
      exact ht
    · exact h.before_le hm t ht
  used := by
    intro n t ht
    rw [before_refresh h.sized hn] at ht
    split at ht
    · exact h.transfer_used hn ht
    · exact h.used ht

end Visit

/-! ## The queue runs empty -/

/-- How many temps are read, counted once per node. -/
def readCount (flow : Array FlowNode) : Nat := (flow.map fun node => node.uses.size).sum

/-- How many neighbours the node at `n` may send back to the queue. -/
def links (flow : Array FlowNode) (n : Nat) : Nat :=
  (flow[n]?.map fun node => node.pred.length + node.succ.length).getD 0

/-- How many temps the two live sets of the node at `n` may still gain. -/
def room (l : Liveness) (n : Nat) : Nat :=
  2 * readCount l.flow - ((l.before n).size + (l.after n).size)

/-- **The potential**: the visits that are due or may still become due. -/
def potential (l : Liveness) (queue : List Nat) : Nat :=
  queue.length + ∑ n ∈ Finset.range l.flow.size, links l.flow n * l.room n

section Potential

variable {l : Liveness} {index : Nat} {queue : List Nat}

theorem Pending.size_join_le (h : l.Pending queue) (node : FlowNode) :
    (l.join node).size ≤ readCount l.flow := by
  unfold readCount
  rw [← Array.sum_toList, Array.toList_map]
  exact size_le_sum_of_forall _ _ _ fun t ht => h.join_used ht

/-- **A changing visit uses up room.** -/
theorem Pending.room_refresh_lt (h : l.Pending queue) {node : FlowNode}
    (hn : l.flow[index]? = some node) (ha : l.agrees node index = false) :
    (l.refresh node index).room index + 1 ≤ l.room index := by
  have hout := size_le_of_subset (h.after_le hn)
  have hin := size_le_of_subset (h.before_le hn)
  have hbound := h.size_join_le node
  have hbound' : (transfer node (l.join node)).size ≤ readCount l.flow := by
    unfold readCount
    rw [← Array.sum_toList, Array.toList_map]
    exact size_le_sum_of_forall _ _ _ fun t ht => h.transfer_used hn ht
  have hgrow : (l.before index).size + (l.after index).size
      < (transfer node (l.join node)).size + (l.join node).size := by
    -- one of the two equations fails, and there the set found is strictly below
    by_cases hjoin : l.after index = l.join node
    · have htransfer : l.before index ≠ transfer node (l.join node) := by
        intro heq
        rw [agrees_iff.mpr ⟨hjoin.symm, heq.symm⟩] at ha
        cases ha
      have := size_lt_of_subset (h.before_le hn) htransfer
      omega
    · have := size_lt_of_subset (h.after_le hn) hjoin
      omega
  unfold room
  rw [before_refresh h.sized hn, after_refresh h.sized hn, if_pos rfl, if_pos rfl,
    show (l.refresh node index).flow = l.flow from rfl]
  omega

/-- **Every visit lowers the potential.** -/
theorem Pending.potential_visit_lt (h : l.Pending (index :: queue)) :
    potential (l.visit index queue).1 (l.visit index queue).2 < potential l (index :: queue) := by
  obtain ⟨hv, _⟩ | ⟨node, hn, ha, hv⟩ := visit_cases l index queue
  · rw [hv]
    exact Nat.add_lt_add_right (Nat.lt_succ_self _) _
  · rw [hv]
    unfold potential
    dsimp only
    rw [show (l.refresh node index).flow = l.flow from rfl]
    have hmem : index ∈ Finset.range l.flow.size :=
      Finset.mem_range.mpr (Array.getElem?_eq_some_iff.mp hn).1
    have hlinks : links l.flow index = node.pred.length + node.succ.length := by
      unfold links
      rw [hn]
      rfl
    have hothers : ∀ n ∈ (Finset.range l.flow.size).erase index,
        links l.flow n * (l.refresh node index).room n = links l.flow n * l.room n := by
      intro n hne
      have hne : n ≠ index := (Finset.mem_erase.mp hne).1
      unfold room
      rw [before_refresh h.sized hn, after_refresh h.sized hn, if_neg hne, if_neg hne]
      rfl
    -- the neighbours sent back to the queue are paid for with the room that is used up
    have hself : links l.flow index * (l.refresh node index).room index + links l.flow index
        ≤ links l.flow index * l.room index := by
      exact Nat.mul_le_mul_left _ (h.room_refresh_lt hn ha)
    have hqueue := length_foldl_enqueue_le (node.pred ++ node.succ) queue
    rw [length_append] at hqueue
    rw [← Finset.add_sum_erase _ _ hmem, ← Finset.add_sum_erase _ _ hmem,
      Finset.sum_congr rfl hothers, length_cons]
    omega

/-- **A visit keeps the invariant**, with its new queue. -/
theorem Pending.visit (h : l.Pending (index :: queue)) :
    (l.visit index queue).1.Pending (l.visit index queue).2 := by
  obtain ⟨hv, ha⟩ | ⟨node, hn, _, hv⟩ := visit_cases l index queue
  · rw [hv]
    refine ⟨h.sized, h.linked, fun {n node} hn hq => ?_, h.after_le, h.before_le, h.used⟩
    by_cases he : n = index
    · subst he
      exact ha node hn
    · exact h.settled hn (by simp [he, hq])
  · rw [hv]
    exact h.refresh hn

theorem flow_visit (l : Liveness) (index : Nat) (queue : List Nat) :
    (l.visit index queue).1.flow = l.flow := by
  obtain ⟨hv, _⟩ | ⟨node, _, _, hv⟩ := visit_cases l index queue <;> rw [hv]
  rfl

end Potential

/-- **The queue runs empty** when there is fuel for the potential. -/
theorem Pending.run {fuel : Nat} {queue : List Nat} (h : l.Pending queue)
    (hfuel : potential l queue ≤ fuel) :
    (run fuel l queue).Pending [] ∧ (run fuel l queue).flow = l.flow := by
  induction fuel generalizing l queue with
  | zero =>
    have hq : queue = [] := by
      unfold potential at hfuel
      exact length_eq_zero_iff.mp (by omega)
    subst hq
    exact ⟨h, rfl⟩
  | succ fuel ih =>
    cases queue with
    | nil => exact ⟨h, rfl⟩
    | cons index queue =>
      have hlt := h.potential_visit_lt
      obtain ⟨hrun, hflow⟩ := ih h.visit (by omega)
      exact ⟨hrun, hflow.trans (flow_visit l index queue)⟩

/-! ## The solution -/

/-- The live sets that `Liveness.solve` starts from. -/
def unsolved (flow : Array FlowNode) : Liveness :=
  { flow, liveIn := .replicate flow.size ∅, liveOut := .replicate flow.size ∅ }

@[simp] theorem before_unsolved (flow : Array FlowNode) (n : Nat) :
    (unsolved flow).before n = ∅ := by
  unfold before unsolved
  rw [Array.getD_eq_getD_getElem?, Array.getElem?_replicate]
  split <;> rfl

@[simp] theorem after_unsolved (flow : Array FlowNode) (n : Nat) : (unsolved flow).after n = ∅ := by
  unfold after unsolved
  rw [Array.getD_eq_getD_getElem?, Array.getElem?_replicate]
  split <;> rfl

/-- The invariant holds before the first visit. -/
theorem pending_unsolved {flow : Array FlowNode} (hlinked : Linked flow) :
    (unsolved flow).Pending (List.range flow.size).reverse where
  sized := ⟨Array.size_replicate, Array.size_replicate⟩
  linked := hlinked
  settled := by
    intro n node hn hq
    have hlt : n < flow.size := (Array.getElem?_eq_some_iff.mp hn).1
    simp [hlt] at hq
  after_le := by
    intro n node _ t ht
    rw [after_unsolved] at ht
    exact absurd ht not_mem_empty
  before_le := by
    intro n node _ t ht
    rw [before_unsolved] at ht
    exact absurd ht not_mem_empty
  used := by
    intro n t ht
    rw [before_unsolved] at ht
    exact absurd ht not_mem_empty

/-- The links of all nodes, by place and by node. -/
theorem sum_links (flow : Array FlowNode) : ∑ n ∈ Finset.range flow.size, links flow n
      = (flow.map fun node => node.pred.length + node.succ.length).sum := by
  have hlist : ∀ nodes : List FlowNode, ∑ n ∈ Finset.range nodes.length,
        (nodes[n]?.map fun node => node.pred.length + node.succ.length).getD 0
      = (nodes.map fun node => node.pred.length + node.succ.length).sum := by
    intro nodes
    induction nodes with
    | nil => rfl
    | cons node nodes ih =>
      rw [length_cons, Finset.sum_range_succ', map_cons, sum_cons, ← ih, Nat.add_comm]
      rfl
  rw [← Array.sum_toList, Array.toList_map, ← hlist, Array.length_toList]
  refine Finset.sum_congr rfl fun n _ => ?_
  rw [Array.getElem?_toList]
  rfl

/-- The bound on visits is the potential of the start. -/
theorem potential_unsolved (flow : Array FlowNode) :
    potential (unsolved flow) (List.range flow.size).reverse = visitBound flow := by
  have hroom : ∀ n, (unsolved flow).room n = 2 * readCount flow := by
    intro n
    unfold room
    rw [before_unsolved, after_unsolved, size_empty]
    rfl
  unfold potential visitBound
  simp only [hroom, length_reverse, length_range]
  rw [show (unsolved flow).flow = flow from rfl, ← Finset.sum_mul, sum_links, Nat.mul_comm]
  rfl

/-- **The live sets solve their equations**: what is live before a node is
what it reads and what it lets pass of what is live after it, and what is live
after it is what is live before one of its successors. Only temps that are
read somewhere are live anywhere. -/
theorem pending_solve {flow : Array FlowNode} (hlinked : Linked flow) :
    (solve flow).Pending [] ∧ (solve flow).flow = flow :=
  (pending_unsolved hlinked).run (Nat.le_of_eq (potential_unsolved flow))

/-! ## The live sets of code -/

/-- An analysis that succeeds solves the control flow of the code. -/
theorem eq_solve_of_analyze {code : List Instruction} {s s' : Session}
    (h : (analyze code).run.run s = (.ok l, s')) :
    ∃ flow, Flow.ofCode code = .ok flow ∧ l = solve flow.toArray := by
  unfold analyze at h
  cases hf : Flow.ofCode code with
  | error e =>
    rw [hf] at h
    cases h
  | ok flow =>
    rw [hf] at h
    cases h
    exact ⟨flow, rfl, rfl⟩

/-- What live sets say about the code they belong to. -/
structure Describes (code : List Instruction) (l : Liveness) : Prop where
  size_eq : l.liveOut.size = code.length
  /-- What an instruction reads is live before it. -/
  mem_before_of_use : ∀ {index : Nat} {i : Instruction} {t : Temp}, code[index]? = some i →
    t ∈ i.uses → t ∈ l.before index
  /-- What is live after an instruction is live before it, unless written. -/
  mem_before_of_after : ∀ {index : Nat} {i : Instruction} {t : Temp}, code[index]? = some i →
    t ∈ l.after index → t ∉ i.defs → t ∈ l.before index
  /-- What is live where control goes is live where it comes from. -/
  mem_after : ∀ {index next : Nat} {i : Instruction} {exit : Machine.Exit} {t : Temp},
    code[index]? = some i → Machine.continueAt code i index exit = some next →
    t ∈ l.before next → t ∈ l.after index
  /-- A temp that is live anywhere is read somewhere. -/
  used : ∀ {index : Nat} {t : Temp}, t ∈ l.after index → ∃ i ∈ code, t ∈ i.uses

section Code

variable {code : List Instruction} {flow : List FlowNode} {l : Liveness}

theorem linked_of_describes (hd : Flow.Describes code flow) : Linked flow.toArray := by
  intro m n p q hp hq hin
  rw [List.getElem?_toArray] at hp hq
  exact (hd.mem_pred hq m).mpr ⟨p, hp, hin⟩

/-- Where nothing waits, both equations hold at every instruction. -/
theorem Pending.equations (hpend : l.Pending []) (hd : Flow.Describes code flow)
    (hflow : l.flow = flow.toArray) {index : Nat} {i : Instruction} (hi : code[index]? = some i) :
    ∃ n, flow[index]? = some n ∧ n.uses = TempSet.ofList i.uses ∧ n.defs = TempSet.ofList i.defs
      ∧ l.join n = l.after index ∧ transfer n (l.after index) = l.before index := by
  obtain ⟨n, hn, huses, hdefs, _⟩ := hd.node hi
  have hnode : l.flow[index]? = some n := by rw [hflow, List.getElem?_toArray, hn]
  obtain ⟨hafter, hbefore⟩ := agrees_iff.mp (hpend.settled hnode not_mem_nil)
  exact ⟨n, hn, huses, hdefs, hafter, hafter ▸ hbefore⟩

/-- What is live after an instruction is read by one. -/
theorem Pending.used_by_code (hpend : l.Pending []) (hd : Flow.Describes code flow)
    (hflow : l.flow = flow.toArray) {index : Nat} {i : Instruction} (hi : code[index]? = some i)
    (ht : t ∈ l.after index) : ∃ i ∈ code, t ∈ i.uses := by
  obtain ⟨n, _, _, _, hafter, _⟩ := hpend.equations hd hflow hi
  rw [← hafter] at ht
  obtain ⟨node, hnode, ht⟩ := hpend.join_used ht
  rw [hflow, toList_toArray] at hnode
  obtain ⟨m, hm⟩ := mem_iff_getElem?.mp hnode
  have hlt : m < code.length := hd.length_eq ▸ (List.getElem?_eq_some_iff.mp hm).1
  obtain ⟨node', hm', huses, _⟩ := hd.node (List.getElem?_eq_getElem hlt)
  rw [hm] at hm'
  cases hm'
  rw [huses] at ht
  exact ⟨code[m], getElem_mem hlt, TempSet.mem_ofList.mp ht⟩

end Code

/-- **The live sets of an analysis describe the code.** -/
theorem describes_of_analyze {code : List Instruction} {s s' : Session}
    (h : (analyze code).run.run s = (.ok l, s')) : Describes code l := by
  obtain ⟨flow, hok, rfl⟩ := eq_solve_of_analyze h
  have hd := Flow.describes_of_ofCode hok
  obtain ⟨hpend, hflow⟩ := pending_solve (linked_of_describes hd)
  have hin : (solve flow.toArray).liveIn.size = code.length := by
    rw [hpend.sized.1, hflow, size_toArray, hd.length_eq]
  have hout : (solve flow.toArray).liveOut.size = code.length := by
    rw [hpend.sized.2, hflow, size_toArray, hd.length_eq]
  -- nothing is live past the end
  have hpast : ∀ {sets : Array TempSet} {index : Nat} {t : Temp}, sets.size = code.length →
      t ∈ sets.getD index ∅ → index < code.length := by
    intro sets index t hsize ht
    by_contra hge
    rw [Array.getD_eq_getD_getElem?,
      Array.getElem?_eq_none (hsize.trans_le (Nat.not_lt.mp hge))] at ht
    exact not_mem_empty ht
  constructor
  case size_eq => exact hout
  case mem_before_of_use =>
    intro index i t hi ht
    obtain ⟨n, _, huses, _, _, hbefore⟩ := hpend.equations hd hflow hi
    rw [← hbefore, mem_transfer, huses]
    exact .inr (TempSet.mem_ofList.mpr ht)
  case mem_before_of_after =>
    intro index i t hi ht hdef
    obtain ⟨n, _, _, hdefs, _, hbefore⟩ := hpend.equations hd hflow hi
    rw [← hbefore, mem_transfer, hdefs]
    exact .inl ⟨ht, fun hin => hdef (TempSet.mem_ofList.mp hin)⟩
  case mem_after =>
    intro index next i exit t hi hgo ht
    obtain ⟨n, hn, _, _, hafter, _⟩ := hpend.equations hd hflow hi
    obtain hsucc | hend := Flow.mem_succ_of_continueAt hd hi hgo hn
    · rw [← hafter, mem_join]
      exact ⟨next, hsucc, ht⟩
    · exact absurd (hpast hin ht) (Nat.not_lt.mpr hend)
  case used =>
    intro index t ht
    exact hpend.used_by_code hd hflow (List.getElem?_eq_getElem (hpast hout ht)) ht

end Liveness

end TreeBackend
