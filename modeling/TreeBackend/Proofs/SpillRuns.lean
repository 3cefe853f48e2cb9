import TreeBackend.Proofs.SpillRoutes
import TreeBackend.Proofs.WordMachine

/-!
# Running spill code

Spill code does more than the code it was made of: around an instruction it
fetches and keeps the values of spilled temps. A run of spill code is therefore
a run of the code with other steps between its steps, and the two machines are
compared where a piece begins. There, a temp that was not spilled is where it
was, and a temp that was spilled is in its word – for as long as there is an
instruction left that could ask for it.
-/

namespace TreeBackend

open Function

variable {t : Temp}

namespace SpillCode

open List Machine

variable {V A F E : Type} [DecidableEq A] (w : WordMachine V A F E) (f : V)

/-! ## Fetching and keeping -/

/-- A step that is not one of the code: it is not seen from outside, goes
straight on, and touches no memory but the words of spilled temps. -/
structure Inserted (slot : A → Prop)
    (x : Machine.Config Temp V (Store A V F) × Outcome V (Store A V F) E) : Prop where
  event_eq : x.2.event? = none
  exit_eq : x.2.exit = .next
  memory : Store.AgreeOff slot x.1.memory x.2.memory

/-- The registers after the values of spilled temps were fetched from words at
displacements from `f`. -/
def fetched (m : Store A V F) (regs : Temp → V) : List Detour → Temp → V
  | [] => regs
  | d :: ds => fetched m (update regs d.fresh (m.words (w.address f d.offset))) ds

/-- The memory after they were kept there. -/
def kept (regs : Temp → V) (m : Store A V F) : List Detour → Store A V F
  | [] => m
  | d :: ds => kept regs (m.write (w.address f d.offset) (regs d.fresh)) ds

variable {w f} {m : Store A V F} {regs : Temp → V} {ds : List Detour}

theorem fetched_of_notMem (h : ∀ d ∈ ds, d.fresh ≠ t) : fetched w f m regs ds t = regs t := by
  induction ds generalizing regs with
  | nil => rfl
  | cons d ds ih =>
    rw [fetched, ih fun e he => h e (mem_cons_of_mem _ he), update_of_ne (h d mem_cons_self).symm]

theorem fetched_fresh (hnodup : (ds.map (·.fresh)).Nodup) {d : Detour} (hd : d ∈ ds) :
    fetched w f m regs ds d.fresh = m.words (w.address f d.offset) := by
  induction ds generalizing regs with
  | nil => cases hd
  | cons e ds ih =>
    obtain ⟨hnotin, hnodup⟩ := nodup_cons.mp hnodup
    rw [fetched]
    obtain rfl | hd := mem_cons.mp hd
    · rw [fetched_of_notMem, update_self]
      exact fun e he heq => hnotin (mem_map.mpr ⟨e, he, heq⟩)
    · exact ih hnodup hd

theorem kept_words_of_ne {a : A} (h : ∀ d ∈ ds, w.address f d.offset ≠ a) :
    (kept w f regs m ds).words a = m.words a := by
  induction ds generalizing m with
  | nil => rfl
  | cons d ds ih =>
    rw [kept, ih fun e he => h e (mem_cons_of_mem _ he)]
    exact update_of_ne (h d mem_cons_self).symm _ _

theorem kept_words (hnodup : (ds.map fun d => w.address f d.offset).Nodup) {d : Detour}
    (hd : d ∈ ds) :
    (kept w f regs m ds).words (w.address f d.offset) = regs d.fresh := by
  induction ds generalizing m with
  | nil => cases hd
  | cons e ds ih =>
    obtain ⟨hnotin, hnodup⟩ := nodup_cons.mp hnodup
    rw [kept]
    obtain rfl | hd := mem_cons.mp hd
    · rw [kept_words_of_ne]
      · exact update_self _ _ _
      · intro e he heq
        exact hnotin (mem_map.mpr ⟨e, he, heq⟩)
    · exact ih hnodup hd

theorem agreeOff_kept {slot : A → Prop} (h : ∀ d ∈ ds, slot (w.address f d.offset)) :
    Store.AgreeOff slot m (kept w f regs m ds) := by
  induction ds generalizing m with
  | nil => exact .refl slot m
  | cons d ds ih =>
    exact (Store.AgreeOff.write (h d mem_cons_self) m _).trans
      (ih fun e he => h e (mem_cons_of_mem _ he))

section Parts

variable (code : List Instruction) (p : Nat) (regs : Temp → V) (m : Store A V F)

/-- **The loads before an instruction.** -/
theorem run_loads (slot : A → Prop) (hfp : regs .framePointer = f)
    (hfresh : ∀ d ∈ ds, d.fresh ≠ .framePointer)
    (hcode : ∀ {j : Nat} {d : Detour}, ds[j]? = some d → code[p + j]? = some d.load) :
    ∃ steps, Run w.toBehaviour code id ⟨p, regs, m⟩ steps ⟨p + ds.length, fetched w f m regs ds, m⟩
      ∧ ∀ x ∈ steps, Inserted slot x := by
  induction ds generalizing p regs with
  | nil => exact ⟨[], .nil _, by simp⟩
  | cons d ds ih =>
    have hstep : Step w.toBehaviour code id ⟨p, regs, m⟩
        ⟨[m.words (w.address f d.offset)], m, none, .next⟩
        ⟨p + 1, update regs d.fresh (m.words (w.address f d.offset)), m⟩ := by
      refine .run (i := d.load) (hcode (j := 0) rfl) ?_ rfl rfl
      show w.acts d.load.operation [regs .framePointer] m _
      rw [hfp]
      exact w.load_acts d.fresh .framePointer d.offset f m
    obtain ⟨steps, hrun, hsteps⟩ := ih (p + 1)
      (update regs d.fresh (m.words (w.address f d.offset)))
      ((update_of_ne (hfresh d mem_cons_self).symm _ _).trans hfp)
      (fun e he => hfresh e (mem_cons_of_mem _ he))
      (fun {j e} he => by rw [Nat.add_assoc, Nat.add_comm 1]; exact hcode he)
    refine ⟨_ :: steps, .cons hstep ?_, ?_⟩
    · rw [length_cons, Nat.add_comm ds.length, ← Nat.add_assoc]
      exact hrun
    · intro x hx
      obtain rfl | hx := mem_cons.mp hx
      · exact ⟨rfl, rfl, .refl slot m⟩
      · exact hsteps x hx

/-- **The stores after it.** -/
theorem run_stores {slot : A → Prop} (hslot : ∀ d ∈ ds, slot (w.address f d.offset))
    (hfp : regs .framePointer = f)
    (hcode : ∀ {j : Nat} {d : Detour}, ds[j]? = some d → code[p + j]? = some d.store) :
    ∃ steps, Run w.toBehaviour code id ⟨p, regs, m⟩ steps ⟨p + ds.length, regs, kept w f regs m ds⟩
      ∧ ∀ x ∈ steps, Inserted slot x := by
  induction ds generalizing p m with
  | nil => exact ⟨[], .nil _, by simp⟩
  | cons d ds ih =>
    have hstep : Step w.toBehaviour code id ⟨p, regs, m⟩
        ⟨[], m.write (w.address f d.offset) (regs d.fresh), none, .next⟩
        ⟨p + 1, regs, m.write (w.address f d.offset) (regs d.fresh)⟩ := by
      refine .run (i := d.store) (hcode (j := 0) rfl) ?_ rfl rfl
      show w.acts d.store.operation [regs d.fresh, regs .framePointer] m _
      rw [hfp]
      exact w.store_acts .framePointer d.fresh d.offset _ f m
    obtain ⟨steps, hrun, hsteps⟩ := ih (p + 1) (m.write (w.address f d.offset) (regs d.fresh))
      (fun e he => hslot e (mem_cons_of_mem _ he))
      (fun {j e} he => by rw [Nat.add_assoc, Nat.add_comm 1]; exact hcode he)
    refine ⟨_ :: steps, .cons hstep ?_, ?_⟩
    · rw [length_cons, Nat.add_comm ds.length, ← Nat.add_assoc]
      exact hrun
    · intro x hx
      obtain rfl | hx := mem_cons.mp hx
      · exact ⟨rfl, rfl, .write (hslot d mem_cons_self) m _⟩
      · exact hsteps x hx

end Parts

/-! ## One instruction and its detours -/

section Detours

variable {slots : TempMap Int64} {s : Session} {i : Instruction}

/-- A temp without a word takes no detour. -/
theorem Detours.reroute_eq_self (h : Detours slots s i ds) (ht : slots[t]? = none) :
    reroute ds t = t := by
  refine reroute_of_notMem fun d hd heq => ?_
  rw [← heq, h.slot d hd] at ht
  cases ht

/-- Different temps take different ways. -/
theorem Detours.reroute_inj (h : Detours slots s i ds) {u : Temp} (ht : s.Owns t) (hu : s.Owns u)
    (heq : reroute ds t = reroute ds u) : t = u := by
  obtain ⟨hsame, _⟩ | ⟨d, hd, rfl, hfresh⟩ := reroute_cases ds t
  · obtain ⟨hsame', _⟩ | ⟨e, he, _, hfresh'⟩ := reroute_cases ds u
    · exact hsame.symm.trans (heq.trans hsame')
    · exact absurd ((hsame.symm.trans (heq.trans hfresh')) ▸ ht) (h.not_owned e he)
  · obtain ⟨hsame', _⟩ | ⟨e, he, rfl, hfresh'⟩ := reroute_cases ds u
    · exact absurd ((hsame'.symm.trans (heq.symm.trans hfresh)) ▸ hu) (h.not_owned d hd)
    · have hde : d.fresh = e.fresh := hfresh.symm.trans (heq.trans hfresh')
      rw [inj_on_of_nodup_map h.fresh_nodup hd he hde]

/-- **After the loads** every temp the instruction reads is where the instruction
now looks for it. -/
theorem Detours.fetched_reroute (h : Detours slots s i ds) {values : Temp → V}
    (hregs : ∀ t, s.Owns t → slots[t]? = none → regs t = values t)
    (hwords : ∀ {t : Temp} {offset : Int64}, slots[t]? = some offset →
      m.words (w.address f offset) = values t)
    {t : Temp} (ht : s.Owns t) (hread : t ∈ i.uses ∨ slots[t]? = none) :
    fetched w f m regs (among ds i.uses) (reroute ds t) = values t := by
  cases hslot : slots[t]? with
  | none =>
    rw [h.reroute_eq_self hslot, fetched_of_notMem, hregs t ht hslot]
    intro d hd heq
    exact h.not_owned d (mem_among.mp hd).1 (heq ▸ ht)
  | some offset =>
    have huse : t ∈ i.uses := hread.resolve_right (by rw [hslot]; simp)
    obtain ⟨d, hd, rfl⟩ := h.exists_of_mem (mem_append_left _ huse) hslot
    have hmem : d ∈ among ds i.uses := mem_among.mpr ⟨hd, huse⟩
    have hnodup : ((among ds i.uses).map (·.fresh)).Nodup :=
      (filter_sublist.map _).nodup h.fresh_nodup
    rw [reroute_eq_fresh h.temps_nodup hd, fetched_fresh hnodup hmem]
    exact hwords (h.slot d hd)

/-- The words of different temps are **apart**: they lie at different addresses, `f` being
the frame pointer's value. -/
def Apart (w : WordMachine V A F E) (f : V) (slots : TempMap Int64) : Prop :=
  ∀ {t u : Temp} {offset offset' : Int64}, slots[t]? = some offset → slots[u]? = some offset' →
    w.address f offset = w.address f offset' → t = u

/-- **After the stores** every word holds what its temp holds. -/
theorem Detours.kept_words_eq (h : Detours slots s i ds) (hapart : Apart w f slots)
    {values : Temp → V} {offset : Int64} (hslot : slots[t]? = some offset)
    (hwritten : t ∈ i.defs → regs (reroute ds t) = values t)
    (hother : t ∉ i.defs → m.words (w.address f offset) = values t) :
    (kept w f regs m (among ds i.defs)).words (w.address f offset) = values t := by
  by_cases hdef : t ∈ i.defs
  · obtain ⟨d, hd, rfl⟩ := h.exists_of_mem (mem_append_right _ hdef) hslot
    obtain rfl : d.offset = offset := Option.some.inj ((h.slot d hd).symm.trans hslot)
    have hmem : d ∈ among ds i.defs := mem_among.mpr ⟨hd, hdef⟩
    have hnodup : ((among ds i.defs).map fun d => w.address f d.offset).Nodup := by
      refine List.Nodup.map_on (fun e he e' he' heq => ?_) ?_
      · have he := (mem_among.mp he).1
        have he' := (mem_among.mp he').1
        exact inj_on_of_nodup_map h.temps_nodup he he' (hapart (h.slot e he) (h.slot e' he') heq)
      · exact (List.Nodup.of_map _ h.temps_nodup).filter _
    rw [kept_words hnodup hmem, ← reroute_eq_fresh h.temps_nodup hd]
    exact hwritten hdef
  · rw [kept_words_of_ne, hother hdef]
    -- the words written belong to other temps
    intro d hd heq
    obtain ⟨hd, hin⟩ := mem_among.mp hd
    exact hdef (hapart (h.slot d hd) hslot heq ▸ hin)

end Detours

/-! ## One piece -/

/-- What makes spill code run like the code it was made of: detours as above, no word
for the frame pointer, no temps but those of the session, and nothing written where
control jumps, nor read where it lands. -/
structure Spilling (slots : TempMap Int64) (s : Session) (code : List Instruction)
    (routes : List (List Detour)) : Prop where
  detours : List.Forall₂ (Detours slots s) code routes
  framePointer : slots[Temp.framePointer]? = none
  owned : ∀ i ∈ code, i.OwnedBy s
  jumps : ∀ i ∈ code, i.targets ≠ [] → i.defs = []
  labels : ∀ i ∈ code, i.label? ≠ none → i.uses = []

variable {code : List Instruction} (w) (f) (slots : TempMap Int64) (s : Session)

/-- The words of spilled temps, `f` being the frame pointer's value. -/
def SlotWord (a : A) : Prop := ∃ t offset, slots[(t : Temp)]? = some offset ∧ w.address f offset = a

/-- A machine with the code and one with spill code **correspond** where a piece
begins: temps that were not spilled are where they were, spilled ones are in
their words if there is still code to run, and all other memory is the same. -/
structure Corresponds (code : List Instruction) (routes : List (List Detour))
    (c d : Machine.Config Temp V (Store A V F)) : Prop where
  index_eq : d.index = start (pieces code routes) c.index
  framePointer_eq : c.regs .framePointer = f
  regs_eq : ∀ t, s.Owns t → slots[t]? = none → d.regs t = c.regs t
  memory : Store.AgreeOff (SlotWord w f slots) c.memory d.memory
  words_eq : c.index < code.length → ∀ {t : Temp} {offset : Int64}, slots[t]? = some offset →
    d.memory.words (w.address f offset) = c.regs t

/-- A step of spill code **mirrors** a step of the code: the same operation on
the same values read, with the same values written, event and exit; temps that
were not spilled and memory other than their words are the same before, and the
memory after. -/
structure Mirrors (code code' : List Instruction)
    (x y : Machine.Config Temp V (Store A V F) × Outcome V (Store A V F) E) : Prop where
  reads_eq : ∃ i i', code[x.1.index]? = some i ∧ code'[y.1.index]? = some i' ∧
    i'.operation = i.operation ∧ y.1.reads id i' = x.1.reads id i
  regs_eq : ∀ t, s.Owns t → slots[t]? = none → y.1.regs t = x.1.regs t
  memory : Store.AgreeOff (SlotWord w f slots) x.1.memory y.1.memory
  outcome_eq : y.2.values = x.2.values ∧ y.2.event? = x.2.event? ∧ y.2.exit = x.2.exit
  memory_after : Store.AgreeOff (SlotWord w f slots) x.2.memory y.2.memory

variable {w f slots s} {routes : List (List Detour)} {k : Nat} {i : Instruction}

theorem Spilling.exists_route (h : Spilling slots s code routes) (hi : code[k]? = some i) :
    ∃ ds, Detours slots s i ds ∧ (pieces code routes)[k]? = some (routed i ds).toList := by
  obtain ⟨hlt, hget⟩ := List.getElem?_eq_some_iff.mp hi
  have hlt' : k < routes.length := h.detours.length_eq ▸ hlt
  refine ⟨routes[k], ?_, ?_⟩
  · rw [← hget]
    exact h.detours.get hlt hlt'
  · unfold pieces
    rw [List.getElem?_zipWith, hi, List.getElem?_eq_getElem hlt']

theorem length_routed_toList (i : Instruction) (ds : List Detour) :
    (routed i ds).toList.length = (among ds i.uses).length + 1 + (among ds i.defs).length := by
  simp only [Wrapped.toList, routed, length_append, length_cons, length_map]
  omega

/-- Where the parts of a piece stand. -/
theorem getElem?_piece (hpiece : (pieces code routes)[k]? = some (routed i ds).toList) :
    (∀ {j : Nat} {d : Detour}, (among ds i.uses)[j]? = some d →
      (pieces code routes).flatten[start (pieces code routes) k + j]? = some d.load) ∧
    (pieces code routes).flatten[start (pieces code routes) k + (among ds i.uses).length]?
      = some (routed i ds).instruction ∧
    ∀ {j : Nat} {d : Detour}, (among ds i.defs)[j]? = some d →
      (pieces code routes).flatten[start (pieces code routes) k + (among ds i.uses).length + 1 + j]?
        = some d.store := by
  have hlen := length_routed_toList i ds
  have hbefore : (routed i ds).before.length = (among ds i.uses).length := length_map _
  refine ⟨fun {j d} hd => ?_, ?_, fun {j d} hd => ?_⟩
  · have hj := (List.getElem?_eq_some_iff.mp hd).1
    rw [getElem?_flatten_start hpiece (by omega), Wrapped.toList,
      List.getElem?_append_left (hbefore.symm ▸ hj)]
    show ((among ds i.uses).map Detour.load)[j]? = _
    rw [List.getElem?_map, hd]
    rfl
  · rw [getElem?_flatten_start hpiece (by omega), Wrapped.toList,
      List.getElem?_append_right (Nat.le_of_eq hbefore), hbefore, Nat.sub_self]
    rfl
  · have hj := (List.getElem?_eq_some_iff.mp hd).1
    rw [Nat.add_assoc, Nat.add_assoc, getElem?_flatten_start hpiece (by omega), Wrapped.toList,
      List.getElem?_append_right (by omega), hbefore, Nat.add_sub_cancel_left, Nat.add_comm 1,
      List.getElem?_cons_succ]
    show ((among ds i.defs).map Detour.store)[j]? = _
    rw [List.getElem?_map, hd]
    rfl

theorem length_pieces (hlen : code.length = routes.length) :
    (pieces code routes).length = code.length := by
  unfold pieces
  rw [length_zipWith, hlen, Nat.min_self]

/-- Control that jumps, or leaves, goes on where a piece starts. -/
theorem Spilling.continueAt_routed (h : Spilling slots s code routes) {index next : Nat}
    {exit : Exit} (hexit : exit ≠ .next) (hgoes : continueAt code i index exit = some next)
    (place : Nat) :
    continueAt (pieces code routes).flatten (routed i ds).instruction place exit
      = some (start (pieces code routes) next) := by
  cases exit with
  | next => exact absurd rfl hexit
  | target j =>
    obtain ⟨l, hl, hnext⟩ := Option.bind_eq_some_iff.mp hgoes
    show i.targets[j]?.bind (Flow.labelIndex? (pieces code routes).flatten) = _
    rw [hl]
    show Flow.labelIndex? (pieces code routes).flatten l = _
    rw [labelIndex?_pieces h.detours.length_eq h.labels, hnext]
    rfl
  | leave =>
    obtain rfl : code.length = next := Option.some.inj hgoes
    show some (pieces code routes).flatten.length = _
    rw [← start_length, length_pieces h.detours.length_eq]

/-- A temp that was written by a routed instruction, or that never had to be
fetched, is where the code would have it. -/
theorem Detours.writeAll_reroute (h : Detours slots s i ds) (howned : i.OwnedBy s)
    {values : Temp → V} {outs : List V} (hlen : outs.length = i.defs.length)
    (hregs : ∀ t, s.Owns t → slots[t]? = none → regs (reroute ds t) = values t) (ht : s.Owns t)
    (hwritten : t ∈ i.defs ∨ slots[t]? = none) :
    writeAll regs (i.defs.map (reroute ds)) outs (reroute ds t)
      = writeAll values i.defs outs t := by
  refine writeAll_map values regs hlen (fun hnot => ?_) fun d hd hne heq => hne ?_
  · exact hregs t ht (hwritten.resolve_left hnot)
  · exact h.reroute_inj (howned d (mem_append_right _ hd)) ht heq

section Step

variable {c d c₁ : Machine.Config Temp V (Store A V F)} {out : Outcome V (Store A V F) E}

/-- Whether a step leaves the frame pointer and the words of spilled temps
alone. -/
structure Quiet (w : WordMachine V A F E) (f : V) (slots : TempMap Int64) (code : List Instruction)
    (x : Machine.Config Temp V (Store A V F) × Outcome V (Store A V F) E) : Prop where
  framePointer : ∀ {i}, code[x.1.index]? = some i → .framePointer ∉ i.defs
  words : ∀ {i}, code[x.1.index]? = some i →
    LeavesAlone w.toBehaviour (SlotWord w f slots) i.operation (x.1.reads id i) x.1.memory x.2

/-- The machine with spill code when the loads of a piece are done. -/
def loaded (w : WordMachine V A F E) (f : V) (i : Instruction) (ds : List Detour)
    (d : Machine.Config Temp V (Store A V F)) : Machine.Config Temp V (Store A V F) where
  index := d.index + (among ds i.uses).length
  regs := fetched w f d.memory d.regs (among ds i.uses)
  memory := d.memory

/-- What the code finds in a temp, spill code finds where it rerouted the temp
to. -/
theorem Corresponds.loaded_regs (h : Corresponds w f slots s code routes c d)
    (hi : code[c.index]? = some i) (hds : Detours slots s i ds) (ht : s.Owns t)
    (hread : t ∈ i.uses ∨ slots[t]? = none) : (loaded w f i ds d).regs (reroute ds t) = c.regs t :=
  hds.fetched_reroute h.regs_eq (h.words_eq (List.getElem?_eq_some_iff.mp hi).1) ht hread

theorem Corresponds.framePointer_regs (h : Corresponds w f slots s code routes c d)
    (hsp : Spilling slots s code routes) : d.regs .framePointer = f :=
  (h.regs_eq .framePointer rfl hsp.framePointer).trans h.framePointer_eq

/-- The loads of a piece. -/
theorem Corresponds.run_loaded (h : Corresponds w f slots s code routes c d)
    (hsp : Spilling slots s code routes) (hds : Detours slots s i ds)
    (hpiece : (pieces code routes)[c.index]? = some (routed i ds).toList) :
    ∃ steps, Run w.toBehaviour (pieces code routes).flatten id d steps (loaded w f i ds d)
      ∧ ∀ x ∈ steps, Inserted (SlotWord w f slots) x := by
  refine run_loads _ _ _ _ (SlotWord w f slots) (h.framePointer_regs hsp) ?_ ?_
  · rintro e he heq
    exact hds.not_owned e (mem_among.mp he).1 (heq ▸ rfl)
  · rw [h.index_eq]
    exact (getElem?_piece hpiece).1

/-- **The instruction of a piece**, after its loads, may do what it does in the
code. -/
theorem Corresponds.mirrors (h : Corresponds w f slots s code routes c d)
    (hsp : Spilling slots s code routes) (hi : code[c.index]? = some i)
    (hds : Detours slots s i ds)
    (hpiece : (pieces code routes)[c.index]? = some (routed i ds).toList)
    (hquiet : Quiet w f slots code (c, out)) :
    ∃ memory, w.acts (routed i ds).instruction.operation
        ((loaded w f i ds d).reads id (routed i ds).instruction) d.memory { out with memory } ∧
      Mirrors w f slots s code (pieces code routes).flatten (c, out)
        (loaded w f i ds d, { out with memory }) ∧
      ∀ {t : Temp} {offset : Int64}, slots[t]? = some offset →
        memory.words (w.address f offset) = c.regs t := by
  obtain ⟨memory, hacts, hafter, hkeep⟩ := hquiet.words hi d.memory h.memory
  have hreads : (loaded w f i ds d).reads id (routed i ds).instruction = c.reads id i := by
    show (i.uses.map (reroute ds)).map (loaded w f i ds d).regs = i.uses.map c.regs
    rw [map_map]
    refine map_congr_left fun t ht => ?_
    exact h.loaded_regs hi hds (hsp.owned i (mem_of_getElem? hi) t (mem_append_left _ ht)) (.inl ht)
  refine ⟨memory, ?_, ⟨⟨i, (routed i ds).instruction, hi, ?_, rfl, hreads⟩, ?_, h.memory,
    ⟨rfl, rfl, rfl⟩, hafter⟩, ?_⟩
  · rw [hreads]
    exact hacts
  · show (pieces code routes).flatten[d.index + _]? = _
    rw [h.index_eq]
    exact (getElem?_piece hpiece).2.1
  · intro t ht hslot
    rw [← h.loaded_regs hi hds ht (.inr hslot), hds.reroute_eq_self hslot]
  · intro t offset hslot
    rw [hkeep _ ⟨t, offset, hslot, rfl⟩]
    exact h.words_eq (List.getElem?_eq_some_iff.mp hi).1 hslot

/-- The registers of the machine with spill code when the instruction of a piece
has run, and its stores have not. -/
def written (w : WordMachine V A F E) (f : V) (i : Instruction) (ds : List Detour)
    (d : Machine.Config Temp V (Store A V F)) (values : List V) : Temp → V :=
  writeAll (loaded w f i ds d).regs (i.defs.map (reroute ds)) values

/-- The instruction of a piece **has run**: what it wrote is where it was
rerouted to, and the words of all other spilled temps are up to date. -/
structure HasRun (w : WordMachine V A F E) (f : V) (slots : TempMap Int64) (s : Session)
    (i : Instruction) (ds : List Detour) (d c₁ : Machine.Config Temp V (Store A V F))
    (values : List V) (memory : Store A V F) : Prop where
  regs_reroute : ∀ {t : Temp}, s.Owns t → t ∈ i.defs ∨ slots[t]? = none →
    written w f i ds d values (reroute ds t) = c₁.regs t
  regs_eq : ∀ t, s.Owns t → slots[t]? = none → written w f i ds d values t = c₁.regs t
  framePointer_eq : c₁.regs .framePointer = f
  memory_eq : Store.AgreeOff (SlotWord w f slots) c₁.memory memory
  words_eq : ∀ {t : Temp} {offset : Int64}, slots[t]? = some offset → t ∉ i.defs →
    memory.words (w.address f offset) = c₁.regs t

/-- After the loads, the instruction of a piece runs. -/
theorem Corresponds.hasRun (h : Corresponds w f slots s code routes c d)
    (hsp : Spilling slots s code routes) (hi : code[c.index]? = some i)
    (hds : Detours slots s i ds)
    (hpiece : (pieces code routes)[c.index]? = some (routed i ds).toList)
    (harity : out.values.length = i.defs.length) (hquiet : Quiet w f slots code (c, out)) :
    ∃ memory,
      (∀ next, HasRun w f slots s i ds d ⟨next, writeAll c.regs i.defs out.values, out.memory⟩
        out.values memory) ∧
      Mirrors w f slots s code (pieces code routes).flatten (c, out)
        (loaded w f i ds d, { out with memory }) ∧
      ∀ {place}, continueAt (pieces code routes).flatten (routed i ds).instruction
          (loaded w f i ds d).index out.exit = some place →
        Step w.toBehaviour (pieces code routes).flatten id (loaded w f i ds d) { out with memory }
          ⟨place, written w f i ds d out.values, memory⟩ := by
  obtain ⟨memory, hacts, hmirrors, hwords⟩ := h.mirrors hsp hi hds hpiece hquiet
  have hregs {t : Temp} (ht : s.Owns t) (hwritten : t ∈ i.defs ∨ slots[t]? = none) :
      written w f i ds d out.values (reroute ds t) = writeAll c.regs i.defs out.values t :=
    hds.writeAll_reroute (hsp.owned i (mem_of_getElem? hi)) harity
      (fun t ht hslot => h.loaded_regs hi hds ht (.inr hslot)) ht hwritten
  refine ⟨memory, fun next => ⟨hregs, fun t ht hslot => ?_, ?_, hmirrors.memory_after, ?_⟩,
    hmirrors, fun {place} hplace => ?_⟩
  · exact (congrArg _ (hds.reroute_eq_self hslot)).symm.trans (hregs ht (.inr hslot))
  · exact (writeAll_of_notMem (hquiet.framePointer hi)).trans h.framePointer_eq
  · exact fun hslot hdef => (hwords hslot).trans (writeAll_of_notMem hdef).symm
  · have hat : (pieces code routes).flatten[(loaded w f i ds d).index]?
        = some (routed i ds).instruction := by
      show (pieces code routes).flatten[d.index + _]? = _
      rw [h.index_eq]
      exact (getElem?_piece hpiece).2.1
    have hrun := Step.run (b := w.toBehaviour) hat hacts (harity.trans (length_map _).symm) hplace
    rwa [map_id] at hrun

/-- Control goes straight on, through the stores of the piece. -/
theorem HasRun.run_stored {memory : Store A V F} {values : List V} {k : Nat}
    (hafter : HasRun w f slots s i ds d c₁ values memory) (hsp : Spilling slots s code routes)
    (hapart : Apart w f slots) (hi : code[k]? = some i) (hds : Detours slots s i ds)
    (hpiece : (pieces code routes)[k]? = some (routed i ds).toList)
    (hindex : d.index = start (pieces code routes) k) (hnext : c₁.index = k + 1) :
    ∃ steps d₁, Run w.toBehaviour (pieces code routes).flatten id
        ⟨(loaded w f i ds d).index + 1, written w f i ds d values, memory⟩ steps d₁ ∧
      (∀ x ∈ steps, Inserted (SlotWord w f slots) x) ∧
      Corresponds w f slots s code routes c₁ d₁ := by
  have hslots : ∀ e ∈ among ds i.defs, SlotWord w f slots (w.address f e.offset) :=
    fun e he => ⟨e.temp, e.offset, hds.slot e (mem_among.mp he).1, rfl⟩
  have hplace : (loaded w f i ds d).index
      = start (pieces code routes) k + (among ds i.uses).length := congrArg (· + _) hindex
  obtain ⟨steps, hrun, hsteps⟩ := run_stores (pieces code routes).flatten
    ((loaded w f i ds d).index + 1) (written w f i ds d values) memory hslots
    ((hafter.regs_eq .framePointer rfl hsp.framePointer).trans hafter.framePointer_eq)
    (by rw [hplace]; exact (getElem?_piece hpiece).2.2)
  refine ⟨steps, _, hrun, hsteps, ?_, hafter.framePointer_eq, hafter.regs_eq,
    hafter.memory_eq.trans (agreeOff_kept hslots), fun _ {t offset} hslot => ?_⟩
  · show (loaded w f i ds d).index + 1 + _ = _
    rw [hnext, start_succ hpiece, length_routed_toList, hplace]
    omega
  · have howned := hsp.owned i (mem_of_getElem? hi)
    exact hds.kept_words_eq hapart hslot
      (fun hdef => hafter.regs_reroute (howned t (mem_append_right _ hdef)) (.inl hdef))
      (hafter.words_eq hslot)

/-- Control jumps or leaves: nothing was written, or nothing is left to be
read. -/
theorem HasRun.corresponds_of_jump {memory : Store A V F} {values : List V} {k : Nat} {exit : Exit}
    (hafter : HasRun w f slots s i ds d c₁ values memory) (hsp : Spilling slots s code routes)
    (hi : code[k]? = some i) (hexit : exit ≠ .next)
    (hgoes : continueAt code i k exit = some c₁.index) :
    Corresponds w f slots s code routes c₁
      ⟨start (pieces code routes) c₁.index, written w f i ds d values, memory⟩ := by
  refine ⟨rfl, hafter.framePointer_eq, hafter.regs_eq, hafter.memory_eq,
    fun hlt {t offset} hslot => ?_⟩
  refine hafter.words_eq hslot fun hdef => ?_
  cases exit with
  | next => exact hexit rfl
  | target j =>
    obtain ⟨l, hl, -⟩ := Option.bind_eq_some_iff.mp hgoes
    rw [hsp.jumps i (mem_of_getElem? hi) fun hnil => by simp [hnil] at hl] at hdef
    cases hdef
  | leave => exact Nat.ne_of_lt hlt (Option.some.inj hgoes).symm

/-- **One step**: a piece does what its instruction does. -/
theorem Corresponds.step (h : Corresponds w f slots s code routes c d)
    (hsp : Spilling slots s code routes) (hapart : Apart w f slots)
    (hstep : Step w.toBehaviour code id c out c₁) (hquiet : Quiet w f slots code (c, out)) :
    ∃ steps d₁, Run w.toBehaviour (pieces code routes).flatten id d steps d₁ ∧
      Interleaved (Mirrors w f slots s code (pieces code routes).flatten)
        (Inserted (SlotWord w f slots)) [(c, out)] steps ∧
      Corresponds w f slots s code routes c₁ d₁ := by
  obtain ⟨hi, -, harity, hgoes⟩ := hstep
  rename_i i next
  obtain ⟨ds, hds, hpiece⟩ := hsp.exists_route hi
  obtain ⟨before, hrun, hbefore⟩ := h.run_loaded hsp hds hpiece
  obtain ⟨memory, hafter, hmirrors, hinstruction⟩ := h.hasRun hsp hi hds hpiece harity hquiet
  rw [map_id]
  by_cases hexit : out.exit = .next
  · -- the loads, the instruction, the stores
    rw [hexit] at hgoes
    obtain ⟨hfalls, hnext⟩ := Option.ite_none_right_eq_some.mp hgoes
    have hplace : continueAt (pieces code routes).flatten (routed i ds).instruction
        (loaded w f i ds d).index out.exit = some ((loaded w f i ds d).index + 1) := by
      rw [hexit]
      exact if_pos hfalls
    obtain ⟨after, d₁, hrun', hinserted, hcorresponds⟩ :=
      (hafter next).run_stored hsp hapart hi hds hpiece h.index_eq (Option.some.inj hnext).symm
    exact ⟨_, d₁, hrun.append (.cons (hinstruction hplace) hrun'),
      (Interleaved.of_extra hbefore).append (.both hmirrors (.of_extra hinserted)), hcorresponds⟩
  · -- the loads and the instruction; the stores are left out
    exact ⟨_, _, hrun.append (.cons (hinstruction (hsp.continueAt_routed hexit hgoes _)) (.nil _)),
      (Interleaved.of_extra hbefore).append (.both hmirrors .nil),
      (hafter next).corresponds_of_jump hsp hi hexit hgoes⟩

/-- **A whole run**, by its steps. -/
theorem Corresponds.run (h : Corresponds w f slots s code routes c d)
    (hsp : Spilling slots s code routes) (hapart : Apart w f slots)
    {steps : List (Machine.Config Temp V (Store A V F) × Outcome V (Store A V F) E)}
    (hrun : Run w.toBehaviour code id c steps c₁) (hquiet : ∀ x ∈ steps, Quiet w f slots code x) :
    ∃ steps' d₁, Run w.toBehaviour (pieces code routes).flatten id d steps' d₁ ∧
      Interleaved (Mirrors w f slots s code (pieces code routes).flatten)
        (Inserted (SlotWord w f slots)) steps steps' ∧
      Corresponds w f slots s code routes c₁ d₁ := by
  induction hrun generalizing d with
  | nil c => exact ⟨[], d, .nil d, .nil, h⟩
  | cons head _ ih =>
    obtain ⟨first, d₂, hfirst, hmirrors, h₂⟩ := h.step hsp hapart head (hquiet _ mem_cons_self)
    obtain ⟨rest, d₁, hrest, hmirrors', h₁⟩ := ih h₂ fun x hx => hquiet x (mem_cons_of_mem _ hx)
    exact ⟨_, d₁, hfirst.append hrest, hmirrors.append hmirrors', h₁⟩

end Step

end SpillCode

end TreeBackend
