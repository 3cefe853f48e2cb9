import Mathlib.Algebra.BigOperators.Group.List.Basic
import Mathlib.Data.List.Dedup
import TreeBackend.Proofs.Recoloring
import TreeBackend.Proofs.SpillRounds

/-!
# What an allocation reports

Register allocation reports the temps it spilled, the words they went to, and
how many rounds it took. The report is kept from round to round
(`Allocation.Account`): a temp that is spilled was mentioned by the given code,
is gone from then on, and costs one instruction for every instruction of the
given code that reads it and one for every instruction that writes it. Since
spill code mentions no spilled temp, and temps drawn by spill code are not
spilled, every round spills temps of the given code that are still there, so the
rounds are bounded by the number of these temps.
-/

namespace TreeBackend

open List Std.ExtTreeMap SpillCode

open Interference (mentions)

namespace SpillCode

/-! ## The cost of spilling -/

/-- How many instructions read a temp, and how many write it. -/
def accesses (code : List Instruction) (t : Temp) : Nat :=
  code.countP (t ∈ ·.uses) + code.countP (t ∈ ·.defs)

theorem accesses_append (code more : List Instruction) (t : Temp) :
    accesses (code ++ more) t = accesses code t + accesses more t := by
  unfold accesses
  rw [countP_append, countP_append]
  omega

theorem accesses_cons (i : Instruction) (code : List Instruction) (t : Temp) :
    accesses (i :: code) t = accesses [i] t + accesses code t :=
  accesses_append [i] code t

variable {t : Temp}

theorem accesses_eq_zero {code : List Instruction} (h : t ∉ mentions code) :
    accesses code t = 0 := by
  have hno : ∀ i ∈ code, t ∉ i.uses ++ i.defs := fun i hi ht => h (mem_flatMap.mpr ⟨i, hi, ht⟩)
  have huses : code.countP (t ∈ ·.uses) = 0 := countP_eq_zero.mpr fun i hi => by
      simpa using fun ht => hno i hi (mem_append_left _ ht)
  have hdefs : code.countP (t ∈ ·.defs) = 0 := countP_eq_zero.mpr fun i hi => by
      simpa using fun ht => hno i hi (mem_append_right _ ht)
  rw [accesses, huses, hdefs]

/-- One instruction is counted once for each temp it reads, and for each it
writes. -/
theorem sum_accesses_singleton (i : Instruction) (ts : List Temp) :
    (ts.map (accesses [i])).sum = ts.countP (· ∈ i.uses) + ts.countP (· ∈ i.defs) := by
  induction ts with
  | nil => rfl
  | cons t ts ih =>
    have hone : accesses [i] t = (if t ∈ i.uses then 1 else 0) + if t ∈ i.defs then 1 else 0 := by
      simp [accesses]
    rw [map_cons, sum_cons, ih, hone]
    simp only [countP_cons, decide_eq_true_eq]
    omega

variable {slots : TempMap Int64} {s : Session} {i : Instruction} {ds : List Detour}
  {code : List Instruction} {routes : List (List Detour)} {spilled : List Temp}

/-- There is one detour for each spilled temp that the instruction mentions. -/
theorem Detours.length_among (h : Detours slots s i ds)
    (hslots : ∀ t, slots[t]?.isSome ↔ t ∈ spilled) (hnodup : spilled.Nodup) {ts : List Temp}
    (hts : ∀ t ∈ ts, t ∈ i.uses ++ i.defs) : (among ds ts).length = spilled.countP (· ∈ ts) := by
  have hperm : ((among ds ts).map (·.temp)).Perm (spilled.filter (· ∈ ts)) := by
    refine (perm_ext_iff_of_nodup ?_ (hnodup.filter _)).mpr fun t => ?_
    · exact h.temps_nodup.sublist (filter_sublist.map _)
    · rw [mem_map, mem_filter, decide_eq_true_eq, ← hslots]
      constructor
      · rintro ⟨d, hd, rfl⟩
        rw [mem_among] at hd
        exact ⟨by rw [h.slot d hd.1]; rfl, hd.2⟩
      · rintro ⟨hslot, ht⟩
        obtain ⟨offset, hoffset⟩ := Option.isSome_iff_exists.mp hslot
        obtain ⟨d, hd, rfl⟩ := h.exists_of_mem (hts t ht) hoffset
        exact ⟨d, mem_among.mpr ⟨hd, ht⟩, rfl⟩
  rw [countP_eq_length_filter, ← hperm.length_eq, length_map]

theorem Detours.length_toList (h : Detours slots s i ds)
    (hslots : ∀ t, slots[t]?.isSome ↔ t ∈ spilled) (hnodup : spilled.Nodup) :
    (routed i ds).toList.length = 1 + (spilled.map (accesses [i])).sum := by
  have huses := h.length_among hslots hnodup fun t (ht : t ∈ i.uses) => mem_append_left _ ht
  have hdefs := h.length_among hslots hnodup fun t (ht : t ∈ i.defs) => mem_append_right _ ht
  rw [sum_accesses_singleton, ← huses, ← hdefs]
  simp only [Wrapped.toList, routed, length_append, length_map, length_cons]
  omega

/-- **The length of spill code**: an instruction more for each access. -/
theorem length_spillCode (h : List.Forall₂ (Detours slots s) code routes)
    (hslots : ∀ t, slots[t]?.isSome ↔ t ∈ spilled) (hnodup : spilled.Nodup) :
    (pieces code routes).flatten.length = code.length + (spilled.map (accesses code)).sum := by
  induction h with
  | nil =>
    have hzero : (spilled.map (accesses [])).sum = 0 := sum_eq_zero fun n hn => by
        obtain ⟨t, -, rfl⟩ := mem_map.mp hn
        rfl
    rw [hzero]
    rfl
  | @cons i ds code routes hds _ ih =>
    have hsum : (spilled.map (accesses (i :: code))).sum
        = (spilled.map (accesses [i])).sum + (spilled.map (accesses code)).sum := by
      rw [← sum_map_add]
      exact congrArg List.sum (map_congr_left fun t _ => accesses_cons i code t)
    show ((routed i ds).toList ++ (pieces code routes).flatten).length = _
    rw [length_append, ih, hds.length_toList hslots hnodup, hsum, length_cons]
    omega

/-! ## The temps of spill code -/

/-- Loads and stores mention the frame pointer and the temp of their detour. -/
theorem Detour.mem_mentions {d : Detour} (h : t ∈ mentions [d.load, d.store]) :
    t = .framePointer ∨ t = d.fresh := by
  have hall : mentions [d.load, d.store] = [.framePointer, d.fresh, d.fresh, .framePointer] := rfl
  rw [hall] at h
  simp only [mem_cons, not_mem_nil, or_false] at h
  tauto

theorem mem_mentions_loads (h : t ∈ mentions (ds.map Detour.load)) :
    ∃ d ∈ ds, t ∈ mentions [d.load, d.store] := by
  obtain ⟨j, hj, ht⟩ := mem_flatMap.mp h
  obtain ⟨d, hd, rfl⟩ := mem_map.mp hj
  exact ⟨d, hd, mem_flatMap.mpr ⟨_, mem_cons_self, ht⟩⟩

theorem mem_mentions_stores (h : t ∈ mentions (ds.map Detour.store)) :
    ∃ d ∈ ds, t ∈ mentions [d.load, d.store] := by
  obtain ⟨j, hj, ht⟩ := mem_flatMap.mp h
  obtain ⟨d, hd, rfl⟩ := mem_map.mp hj
  exact ⟨d, hd, mem_flatMap.mpr ⟨_, mem_cons_of_mem _ mem_cons_self, ht⟩⟩

theorem mentions_append (code more : List Instruction) :
    mentions (code ++ more) = mentions code ++ mentions more :=
  flatMap_append

/-- The temps of an instruction with its detours: those of the instruction that
have no word, those of the detours, and the frame pointer. -/
theorem Detours.mem_mentions_toList (h : Detours slots s i ds)
    (ht : t ∈ mentions (routed i ds).toList) :
    t = .framePointer ∨ (∃ d ∈ ds, d.fresh = t) ∨ (t ∈ i.uses ++ i.defs ∧ slots[t]? = none) := by
  have hdetour : (∃ d ∈ ds, t ∈ mentions [d.load, d.store]) →
      t = .framePointer ∨ ∃ d ∈ ds, d.fresh = t := by
    rintro ⟨d, hd, ht⟩
    exact (Detour.mem_mentions ht).imp_right fun heq => ⟨d, hd, heq.symm⟩
  have hsub : ∀ {ts : List Temp}, ∀ d ∈ among ds ts, d ∈ ds := fun d hd => (mem_among.mp hd).1
  rw [Wrapped.toList, mentions_append, mem_append] at ht
  obtain ht | ht := ht
  · obtain ⟨d, hd, ht⟩ := mem_mentions_loads ht
    exact (hdetour ⟨d, hsub d hd, ht⟩).imp_right .inl
  · obtain ht | ht := mem_append.mp ht
    · -- a temp of the instruction itself is rerouted, unless it has no word
      replace ht : t ∈ (i.uses ++ i.defs).map (reroute ds) := map_append ▸ ht
      obtain ⟨x, hx, rfl⟩ := mem_map.mp ht
      obtain ⟨heq, hno⟩ | ⟨d, hd, -, heq⟩ := reroute_cases ds x
      · rw [heq]
        refine .inr (.inr ⟨hx, Option.eq_none_iff_forall_not_mem.mpr fun offset hoffset => ?_⟩)
        obtain ⟨d, hd, htemp⟩ := h.exists_of_mem hx hoffset
        exact hno d hd htemp
      · exact .inr (.inl ⟨d, hd, heq.symm⟩)
    · obtain ⟨d, hd, ht⟩ := mem_mentions_stores ht
      exact (hdetour ⟨d, hsub d hd, ht⟩).imp_right .inl

theorem mem_mentions_pieces (h : List.Forall₂ (Detours slots s) code routes)
    (ht : t ∈ mentions (pieces code routes).flatten) :
    t = .framePointer ∨ (∃ d ∈ routes.flatten, d.fresh = t) ∨
      (t ∈ mentions code ∧ slots[t]? = none) := by
  induction h with
  | nil => cases ht
  | @cons i ds code routes hds _ ih =>
    replace ht : t ∈ mentions ((routed i ds).toList ++ (pieces code routes).flatten) := ht
    rw [mentions_append, mem_append] at ht
    obtain ht | ht := ht
    · obtain h | ⟨d, hd, heq⟩ | ⟨h, hslot⟩ := hds.mem_mentions_toList ht
      · exact .inl h
      · exact .inr (.inl ⟨d, mem_flatten.mpr ⟨ds, mem_cons_self, hd⟩, heq⟩)
      · exact .inr (.inr ⟨mem_append_left _ h, hslot⟩)
    · obtain h | ⟨d, hd, heq⟩ | ⟨h, hslot⟩ := ih ht
      · exact .inl h
      · rw [flatten_cons]
        exact .inr (.inl ⟨d, mem_append_right _ hd, heq⟩)
      · exact .inr (.inr ⟨mem_append_right _ h, hslot⟩)

/-- A temp without a word is accessed as before. -/
theorem accesses_pieces (h : List.Forall₂ (Detours slots s) code routes) (howned : s.Owns t)
    (hfp : t ≠ .framePointer) (hslot : slots[t]? = none) :
    accesses (pieces code routes).flatten t = accesses code t := by
  induction h with
  | nil => rfl
  | @cons i ds code routes hds _ ih =>
    have hunseen : Unseen ds t := by
      refine fun d hd => ⟨fun heq => ?_, fun heq => hds.not_owned d hd (heq ▸ howned)⟩
      rw [← heq, hds.slot d hd] at hslot
      cases hslot
    have hdetour : ∀ {ts : List Temp}, ¬ ∃ d ∈ among ds ts, t ∈ mentions [d.load, d.store] := by
      rintro ts ⟨d, hd, ht⟩
      exact (Detour.mem_mentions ht).elim hfp fun heq => (hunseen d (mem_among.mp hd).1).2 heq.symm
    have hbefore : accesses (routed i ds).before t = 0 :=
      accesses_eq_zero fun ht => hdetour (mem_mentions_loads ht)
    have hafter : accesses (routed i ds).after t = 0 :=
      accesses_eq_zero fun ht => hdetour (mem_mentions_stores ht)
    have hinstruction : accesses [(routed i ds).instruction] t = accesses [i] t := by
      have huses : t ∈ (routed i ds).instruction.uses ↔ t ∈ i.uses := mem_map_reroute hunseen _
      have hdefs : t ∈ (routed i ds).instruction.defs ↔ t ∈ i.defs := mem_map_reroute hunseen _
      simp only [accesses, countP_singleton, huses, hdefs]
    show accesses ((routed i ds).toList ++ (pieces code routes).flatten) t = _
    rw [accesses_append, ih, accesses_cons i, Wrapped.toList, accesses_append, accesses_cons,
      hbefore, hafter, hinstruction]
    omega

theorem not_owns_of_mem_routes (h : List.Forall₂ (Detours slots s) code routes) {d : Detour}
    (hd : d ∈ routes.flatten) : ¬ s.Owns d.fresh := by
  obtain ⟨ds, hds, hd⟩ := mem_flatten.mp hd
  obtain ⟨k, hk, rfl⟩ := getElem_of_mem hds
  exact ((forall₂_iff_get.mp h).2 k (h.length_eq ▸ hk) hk).not_owned d hd

/-! ## The words of all rounds -/

/-- Words reserved later win. -/
theorem getElem?_foldl_insert (new slots : TempMap Int64) (t : Temp) :
    (new.foldl (fun slots t offset => slots.insert t offset) slots)[t]? = new[t]?.or slots[t]? := by
  rw [foldl_eq_foldl_toList, ← insertMany_list_eq_foldl]
  cases hnew : new[t]? with
  | some offset =>
    exact Std.ExtTreeMap.getElem?_insertMany_list_of_mem Std.ReflCmp.compare_self
      distinct_keys_toList
      (mem_toList_iff_getElem?_eq_some.mpr hnew)
  | none =>
    refine Std.ExtTreeMap.getElem?_insertMany_list_of_contains_eq_false ?_
    rw [contains_eq_mem, decide_eq_false_iff_not, mem_map]
    rintro ⟨⟨_, offset⟩, hmem, rfl⟩
    rw [mem_toList_iff_getElem?_eq_some.mp hmem] at hnew
    cases hnew

theorem contains_foldl_insert (ts : List Temp) (set : TempSet) (t : Temp) :
    t ∈ ts.foldl (fun set t => set.insert t) set ↔ t ∈ set ∨ t ∈ ts := by
  induction ts generalizing set with
  | nil => simp
  | cons x ts ih =>
    rw [foldl_cons, ih, Std.ExtTreeSet.mem_insert, Std.LawfulEqOrd.compare_eq_iff_eq,
      mem_cons, eq_comm (a := x)]
    tauto

end SpillCode

/-! ## The temps without a colour -/

/-- The nodes of a graph are the temps of some code, each once, without the frame
pointer. -/
structure Interference.Covers (g : Interference) (code : List Instruction) : Prop where
  distinct : ∀ {i j : Nat} {n m : InterferenceNode}, g.nodes[i]? = some n → g.nodes[j]? = some m →
    n.temp = m.temp → i = j
  mem : ∀ {i : Nat} {n : InterferenceNode}, g.nodes[i]? = some n →
    n.temp ∈ mentions code ∧ n.temp.isFramePointer = false
  exists_node : ∀ {t : Temp}, t ∈ mentions code → t.isFramePointer = false →
    ∃ (i : Nat) (n : InterferenceNode), g.nodes[i]? = some n ∧ n.temp = t

theorem Interference.covers_colorAvoiding (code : List Instruction) (live : Liveness)
    (registers : Nat) (avoid : TempSet) :
    ((build code live registers).colorAvoiding registers avoid).2.Covers code := by
  have hnodes := nodes_build code live registers
  refine ⟨fun hn hm heq => ?_, fun hn => ?_, fun ht hfp => ?_⟩
  · obtain ⟨_, hn', rfl⟩ := exists_node_of_colorAvoiding hn
    obtain ⟨_, hm', rfl⟩ := exists_node_of_colorAvoiding hm
    exact hnodes.distinct hn' hm' heq
  · obtain ⟨n, hn', rfl⟩ := exists_node_of_colorAvoiding hn
    exact ⟨temp_mem_of_build code live registers (n := n) hn', hnodes.not_framePointer (n := n) hn'⟩
  · obtain ⟨i, hi, ht⟩ := mem_flatMap.mp ht
    obtain ⟨k, hk⟩ := Option.isSome_iff_exists.mp
      (isSome_index?_build code live registers hi ht hfp)
    obtain ⟨n, hn, rfl⟩ := exists_node_of_index? hk
    exact ⟨k, _, (getElem?_nodes_colorAvoiding ..).trans (congrArg _ hn), rfl⟩

namespace Coloring

variable {g : Interference} {merges : List (Temp × Temp)} {code : List Instruction}

end Coloring

namespace Allocation

variable {registers : Nat} {code : List Instruction} {frame : Frame} {p p' : Progress}
  {s u u' v : Session} {round : Round}

theorem covers_of_attempt (h : Yields (attempt p registers) u round v) :
    round.interference.Covers p.instructions ∧
      ∃ merges, round.coloring = .ofGraph round.interference merges := by
  obtain ⟨flow, -, -, hcolor, -⟩ := of_attempt h
  obtain ⟨hcoloring, hinterference⟩ := Prod.mk.inj hcolor
  rw [hcoloring, hinterference]
  exact ⟨Interference.covers_colorAvoiding .., _, rfl⟩

/-- What a round spills are temps of the code, and none that spill code drew. -/
theorem of_candidates (h : Yields (attempt p registers) u round v) :
    (round.candidates p).Nodup ∧ ∀ t ∈ round.candidates p,
      t ∈ mentions p.instructions ∧ t.isFramePointer = false ∧ t ∉ p.spillTemps := by
  obtain ⟨hcovers, merges, hcoloring⟩ := covers_of_attempt h
  unfold Round.candidates
  rw [hcoloring]
  refine ⟨(Coloring.nodup_spilled_ofGraph hcovers.distinct).filter _, fun t ht => ?_⟩
  obtain ⟨ht, hno⟩ := mem_filter.mp ht
  obtain ⟨i, n, hn, rfl, -⟩ := Coloring.mem_spilled_ofGraph.mp ht
  refine ⟨(hcovers.mem hn).1, (hcovers.mem hn).2, fun hmem => ?_⟩
  rw [Std.ExtTreeSet.mem_iff_contains.mp hmem] at hno
  cases hno

/-- Spilling leaves code over temps of the session. -/
theorem Progress.ownedBy_of_spill {temps : List Temp} (howned : ∀ i ∈ p.instructions, i.OwnedBy u)
    (h : (p.spill temps).run u = (p', u')) : ∀ i ∈ p'.instructions, i.OwnedBy u' := by
  have hdraws := (Progress.spill_keeps h).2
  obtain ⟨routes, hroutes, hfresh, rfl⟩ := Progress.of_spill howned h
  intro i hi t ht
  obtain rfl | ⟨d, hd, rfl⟩ | ⟨ht, -⟩ := mem_mentions_pieces hroutes (mem_flatMap.mpr ⟨i, hi, ht⟩)
  · rfl
  · exact hfresh d hd
  · obtain ⟨j, hj, ht⟩ := mem_flatMap.mp ht
    exact (howned j hj t ht).mono hdraws.le

/-- What spill code keeps, for code over temps of the session, is kept by **every round**. -/
theorem Rounds.keepsCode {P : List Instruction → Prop}
    (step : ∀ {code slots s u routes}, P code → (∀ i ∈ code, i.OwnedBy s) →
      List.Forall₂ (SpillCode.Detours slots s) code routes →
      (∀ d ∈ routes.flatten, Session.Owns u d.fresh) → P (SpillCode.pieces code routes).flatten)
    {bound bound' : Nat} {q : Progress} {s : Session} (h : Rounds registers bound p s bound' q u)
    (hp : P p.instructions) (howned : ∀ i ∈ p.instructions, i.OwnedBy s) :
    P q.instructions ∧ ∀ i ∈ q.instructions, i.OwnedBy u := by
  refine h.keeps (fun _ q u => P q.instructions ∧ ∀ i ∈ q.instructions, i.OwnedBy u) ?_ ⟨hp, howned⟩
  intro _ q q' u v u' round ⟨hq, howned⟩ hround _ hspill
  obtain ⟨-, -, -, -, hdraws, -⟩ := of_attempt hround
  have howned' : ∀ i ∈ q.instructions, i.OwnedBy v := fun i hi t ht =>
    (howned i hi t ht).mono hdraws.le
  have hkept := Progress.ownedBy_of_spill howned' hspill
  obtain ⟨routes, hroutes, hfresh, rfl⟩ := Progress.of_spill howned' hspill
  exact ⟨step hq howned' hroutes hfresh, hkept⟩

/-! ## The account of a round -/

/-- The **words** of the temps spilled so far: one for each, in the order in which they
were spilled, from the first that was free in the given frame. -/
structure Words (frame : Frame) (p : Progress) : Prop where
  keys : ∀ t, p.slots[t]?.isSome ↔ t ∈ p.spilled
  exists_index : ∀ {t : Temp} {offset : Int64}, p.slots[t]? = some offset →
    ∃ k, p.spilled[k]? = some t ∧ offset = frame.slotAt k
  frame_eq : p.frame = { frame with localTop := frame.slotAt p.spilled.length }

/-- The words of one round come after those of the rounds before it. -/
theorem Words.spill (h : Words frame p) {temps : List Temp}
    (howned : ∀ i ∈ p.instructions, i.OwnedBy u) (hspill : (p.spill temps).run u = (p', u')) :
    Words frame p' := by
  obtain ⟨routes, -, -, rfl⟩ := Progress.of_spill howned hspill
  refine ⟨fun t => ?_, fun {t offset} ht => ?_, ?_⟩
  · rw [SpillCode.getElem?_foldl_insert, Option.isSome_or, Bool.or_eq_true,
      isSome_reserve, h.keys, mem_append]
    simp [or_comm]
  · rw [SpillCode.getElem?_foldl_insert] at ht
    obtain ht | ⟨-, ht⟩ := Option.or_eq_some_iff.mp ht
    · obtain hempty | ⟨k, hk, rfl⟩ := of_reserve ht
      · simp at hempty
      · refine ⟨p.spilled.length + k, ?_, by rw [h.frame_eq, Frame.slotAt_add]⟩
        rw [List.getElem?_append_right (Nat.le_add_right ..), Nat.add_sub_cancel_left, hk]
    · obtain ⟨k, hk, rfl⟩ := h.exists_index ht
      exact ⟨k, (List.getElem?_append_left (List.getElem?_eq_some_iff.mp hk).1).trans hk, rfl⟩
  · rw [reserve_frame, h.frame_eq, length_append, Frame.slotAt_add]

/-- The word of a spilled temp. -/
theorem Words.slot_eq (h : Words frame p) (hnodup : p.spilled.Nodup) {k : Nat} {t : Temp}
    (hk : p.spilled[k]? = some t) : p.slots[t]? = some (frame.slotAt k) := by
  obtain ⟨offset, hslot⟩ := Option.isSome_iff_exists.mp ((h.keys t).mpr (mem_of_getElem? hk))
  obtain ⟨j, hj, rfl⟩ := h.exists_index hslot
  obtain rfl := (getElem?_inj (List.getElem?_eq_some_iff.mp hj).1 hnodup).mp (hj.trans hk.symm)
  exact hslot

/-- The **account** of the rounds so far, which began with the given code in the
session `s`: which temps are left, and what the spilled ones have cost. -/
structure Account (code : List Instruction) (s : Session) (p : Progress) (u : Session) : Prop where
  le : s.tempCount ≤ u.tempCount
  owned : ∀ i ∈ p.instructions, i.OwnedBy u
  drawn : ∀ t ∈ p.spillTemps, ¬ s.Owns t
  mentioned : ∀ t ∈ mentions p.instructions, t = .framePointer ∨ t ∈ p.spillTemps ∨
    t ∈ mentions code ∧ t ∉ p.spilled
  accesses : ∀ t ∈ mentions code, t.isFramePointer = false → t ∉ p.spilled →
    SpillCode.accesses p.instructions t = SpillCode.accesses code t
  nodup : p.spilled.Nodup
  given : ∀ t ∈ p.spilled, t ∈ mentions code ∧ t.isFramePointer = false
  length : p.instructions.length = code.length + (p.spilled.map (SpillCode.accesses code)).sum

/-- **Every round keeps the account.** -/
theorem Account.spill (h : Account code s p u) (howned : ∀ i ∈ code, i.OwnedBy s)
    (hround : Yields (attempt p registers) u round v)
    (hspill : (p.spill (round.candidates p)).run v = (p', u')) : Account code s p' u' := by
  obtain ⟨hnodup, hcandidates⟩ := of_candidates hround
  obtain ⟨-, -, -, -, hdraws, -⟩ := of_attempt hround
  have hdraws' := (Progress.spill_keeps hspill).2
  have hle : s.tempCount ≤ v.tempCount := Nat.le_trans h.le hdraws.le
  have hmentions : ∀ t ∈ mentions p.instructions, v.Owns t := by
    intro t ht
    obtain ⟨i, hi, ht⟩ := mem_flatMap.mp ht
    exact (h.owned i hi t ht).mono hdraws.le
  have hcode : ∀ t ∈ mentions code, s.Owns t := by
    intro t ht
    obtain ⟨i, hi, ht⟩ := mem_flatMap.mp ht
    exact howned i hi t ht
  -- the candidates are given temps that are still there
  have hgiven : ∀ t ∈ round.candidates p, t ∈ mentions code ∧ t ∉ p.spilled := by
    intro t ht
    obtain ⟨hmem, hfp, hno⟩ := hcandidates t ht
    obtain rfl | hdrawn | hgiven := h.mentioned t hmem
    · cases hfp
    · exact absurd hdrawn hno
    · exact hgiven
  have howned' : ∀ i ∈ p.instructions, i.OwnedBy v := fun i hi t ht =>
    hmentions t (mem_flatMap.mpr ⟨i, hi, ht⟩)
  have hkept := Progress.ownedBy_of_spill howned' hspill
  obtain ⟨routes, hroutes, -, rfl⟩ := Progress.of_spill howned' hspill
  have hslots : ∀ t, (SpillCode.reserve (round.candidates p) ∅ p.frame).1[t]?.isSome
      ↔ t ∈ round.candidates p := by
    intro t
    rw [isSome_reserve]
    simp
  have hslot : ∀ {t}, t ∉ round.candidates p →
      (SpillCode.reserve (round.candidates p) ∅ p.frame).1[t]? = none := by
    intro t ht
    rw [← hslots] at ht
    simpa using ht
  refine ⟨Nat.le_trans hle hdraws'.le, hkept, fun t ht => ?_, fun t ht => ?_,
    fun t ht hfp hno => ?_, ?_, ?_, ?_⟩
  · obtain ht | ht := (contains_foldl_insert _ _ t).mp ht
    · exact h.drawn t ht
    · obtain ⟨d, hd, rfl⟩ := mem_map.mp ht
      exact fun hs => not_owns_of_mem_routes hroutes hd (hs.mono hle)
  · rw [contains_foldl_insert]
    obtain rfl | ⟨d, hd, rfl⟩ | ⟨ht, hnone⟩ := mem_mentions_pieces hroutes ht
    · exact .inl rfl
    · exact .inr (.inl (.inr (mem_map_of_mem hd)))
    · obtain rfl | hdrawn | ⟨hmem, hno⟩ := h.mentioned t ht
      · exact .inl rfl
      · exact .inr (.inl (.inl hdrawn))
      · refine .inr (.inr ⟨hmem, fun ht => (mem_append.mp ht).elim hno fun ht => ?_⟩)
        rw [← hslots, hnone] at ht
        cases ht
  · rw [mem_append, not_or] at hno
    rw [accesses_pieces hroutes ((hcode t ht).mono hle) (by rintro rfl; cases hfp) (hslot hno.2)]
    exact h.accesses t ht hfp hno.1
  · exact nodup_append.mpr ⟨h.nodup, hnodup, fun a ha b hb heq => (hgiven b hb).2 (heq ▸ ha)⟩
  · exact forall_mem_append.mpr ⟨h.given, fun t ht => ⟨(hgiven t ht).1, (hcandidates t ht).2.1⟩⟩
  · have hsum : (round.candidates p).map (SpillCode.accesses p.instructions)
        = (round.candidates p).map (SpillCode.accesses code) :=
      map_congr_left fun t ht => h.accesses t (hgiven t ht).1 (hcandidates t ht).2.1 (hgiven t ht).2
    rw [length_spillCode hroutes hslots hnodup, h.length, hsum, map_append,
      sum_append, Nat.add_assoc]

/-! ## The report -/

/-- What holds whenever a round begins: the account, the words, and a count of the
rounds, each of which spilled something. -/
theorem Rounds.account {bound bound' : Nat} {q : Progress} (howned : ∀ i ∈ code, i.OwnedBy s)
    (h : Rounds registers bound { instructions := code, frame } s bound' q u) :
    Account code s q u ∧ Words frame q ∧ q.rounds + bound' = bound ∧
      q.rounds ≤ q.spilled.length := by
  refine h.keeps (fun bound' q u => Account code s q u ∧ Words frame q ∧
    q.rounds + bound' = bound ∧ q.rounds ≤ q.spilled.length) ?_ ?_
  · intro bound' q q' u v u' round ⟨haccount, hwords, hrounds, hle⟩ hround hmore hspill
    have howned' : ∀ i ∈ q.instructions, i.OwnedBy v := fun i hi t ht => by
      obtain ⟨-, -, -, -, hdraws, -⟩ := of_attempt hround
      exact (haccount.owned i hi t ht).mono hdraws.le
    refine ⟨haccount.spill howned hround hspill, hwords.spill howned' hspill, ?_⟩
    obtain ⟨routes, -, -, rfl⟩ := Progress.of_spill howned' hspill
    have hpos := length_pos_of_ne_nil hmore
    rw [length_append]
    exact ⟨by dsimp only; omega, by dsimp only; omega⟩
  · refine ⟨⟨Nat.le_refl _, howned, by simp, fun t ht => .inr (.inr ⟨ht, by simp⟩), by simp,
      by simp, by simp, rfl⟩, ⟨by simp, by simp, by simp⟩, Nat.zero_add _,
      Nat.le_refl _⟩

end Allocation

end TreeBackend
