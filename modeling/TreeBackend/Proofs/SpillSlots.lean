import TreeBackend.Proofs.AssignedCode
import TreeBackend.Proofs.ReadTrees

/-!
# The words of spilled temps

Spilled temps go to words of the frame above those in use when registers are
allocated, one after the other (`Allocation.Words.exists_temp_iff`). Whether this
keeps them apart from the memory that a method uses itself depends on what the
frame knows about that memory.

The frame of a method lowered from a program has a word for each local, and the
code of the method keeps to those and to the formals below the frame pointer. So
spilled temps get words that the code does not touch. A method read from text
comes without a frame. Its spilled temps get the first words above the frame
pointer, whether the text uses them or not (`CompiledMethod.slots_apart`).
-/

namespace TreeBackend

open List Footprint

/-! ## The temps of code -/

/-- What a tree may do that keeps to some temps. -/
def Reach.temp (temps : Set Temp) : Reach := ⟨temps, ∅, .univ, .univ, False⟩

section Temps

variable {temps : Set Temp}

/-- A tree stays within reach if its temps do. -/
theorem Stm.within_temp {s : Stm} (h : ∀ n ∈ s.nodes, ∀ t ∈ n.temp?, t ∈ temps) :
    s.Within (.temp temps) := by
  refine (s.within_iff rfl).mpr fun n hn => ?_
  unfold Node.Within
  split
  · exact h _ hn _ rfl
  · exact ⟨fun _ _ => trivial, False.elim⟩
  · trivial
  · trivial
  · trivial

theorem Exp.mem_of_within {e : Exp} (h : e.Within (.temp temps)) {t : Temp} (ht : t ∈ e.temps) :
    t ∈ temps := by
  obtain ⟨n, hn, ht⟩ := mem_filterMap.mp ht
  have hwithin := (e.within_iff rfl).mp h n hn
  unfold Node.temp? at ht
  split at ht
  · obtain rfl := Option.some.inj ht
    exact hwithin
  · cases ht

/-- A statement within reach reads and writes temps within reach. -/
theorem Stm.mem_of_within {s : Stm} (h : s.Within (.temp temps)) :
    ∀ t ∈ s.footprint.reads ++ s.footprint.writes, t ∈ temps := by
  intro t ht
  cases s with
  | move dst src =>
    cases dst with
    | temp t' =>
      obtain ht | ht := mem_append.mp ht
      · exact Exp.mem_of_within h.2.2 ht
      · obtain rfl := mem_singleton.mp ht
        exact h.2.1
    | const | name | binop | not | mem | call | eseq =>
      obtain ht | ht := mem_append.mp (append_nil _ ▸ ht)
      · exact Exp.mem_of_within h.2.1 ht
      · exact Exp.mem_of_within h.2.2 ht
  | exp e => exact Exp.mem_of_within h ((mem_append.mp ht).resolve_right not_mem_nil)
  | jump | label | seq => cases ht
  | cjump rel left right target =>
    obtain ht | ht := mem_append.mp (append_nil _ ▸ ht)
    · exact Exp.mem_of_within h.2.1 ht
    · exact Exp.mem_of_within h.2.2 ht

/-- Where temps of a set are assigned all along, they may be read everywhere. -/
theorem Footprint.Flows.of_reads {body : List Stm}
    (h : ∀ s ∈ body, ∀ t ∈ s.footprint.reads, t ∈ temps) :
    Flows (fun _ => temps) temps (body.map Stm.footprint) temps := by
  induction body with
  | nil => exact .nil subset_rfl
  | cons s body ih =>
    rw [forall_mem_cons] at h
    have harrive : s.footprint.arrive (fun _ => temps) temps = temps := by
      unfold arrive
      split
      · rfl
      · rfl
    have hleave : temps ⊆ s.footprint.leave (fun _ => temps) temps := by
      rw [leave, harrive]
      exact Set.subset_union_left
    refine .cons ⟨harrive.subset, harrive.symm ▸ h.1, fun hlabel => ?_, fun l _ => hleave⟩
      ((ih h.2).mono hleave)
    cases s with
    | label => rfl
    | move dst src => cases dst <;> exact absurd rfl hlabel
    | exp | jump | cjump | seq => exact absurd rfl hlabel

end Temps

/-! ## The words that are taken -/

/-- The words above those in use come right after them. -/
theorem Frame.Laid.slotAt_eq {frame : Frame} {formals locals : List String} {s : Session}
    (h : frame.Laid formals locals [] s) (k : Nat) :
    frame.slotAt k = frame.wordAt (frame.wordCount + k) := by
  rw [h.wordCount_eq, Nat.add_assoc, h.wordAt_add, Int64.ofNat_add, Int64.mul_add, slotAt,
    h.localTop]
  rfl

namespace Allocation

variable {frame : Frame} {q : Progress}

/-- **Spilled temps take the words above those in use**, as many as there are spilled
temps, and no other. -/
theorem Words.exists_temp_iff (h : Words frame q) (hnodup : q.spilled.Nodup) {offset : Int64} :
    (∃ t : Temp, q.slots[t]? = some offset) ↔ ∃ k < q.spilled.length, offset = frame.slotAt k := by
  constructor
  · rintro ⟨t, ht⟩
    obtain ⟨k, hk, rfl⟩ := h.exists_index ht
    exact ⟨k, (List.getElem?_eq_some_iff.mp hk).1, rfl⟩
  · rintro ⟨k, hk, rfl⟩
    exact ⟨_, h.slot_eq hnodup (getElem?_eq_getElem hk)⟩

end Allocation

namespace CompiledMethod

variable {strict : Bool} {name : String} {body : Stm} {frame : Frame} {s s' : Session}
  {m : CompiledMethod}

/-- The code of a body over temps of a session is code over temps of the session, and
so is the code whose entry is inferred. -/
theorem ownedBy_of_selectBody {out : List Stm} {exit : List Temp} {u v w : Session} {code : Code}
    (hselectable : Body.Selectable out)
    (hout : ∀ stm ∈ out, stm.Within (.temp {t | u.Owns t})) (hexit : ∀ t ∈ exit, u.Owns t)
    (hle : u.tempCount ≤ v.tempCount)
    (hcode : Yields (selectBody out ⟨none, exit⟩) v code w) :
    ∀ i ∈ code.instructions, i.OwnedBy w := by
  obtain ⟨selected, w₁, hselected, hinfer⟩ := yields_bind.mp hcode
  have howns {t : Temp} (ht : u.Owns t) : v.Owns t := ht.mono hle
  obtain ⟨⟨rest, hrest⟩, hflows, howned, hdraws⟩ := Selection.flows_ofMethod hselectable hselected
    ((Flows.of_reads fun stm hstm t ht => Stm.mem_of_within (hout stm hstm) t
      (mem_append_left _ ht)).mono Set.subset_union_left) hexit (fun _ => howns) nofun
    fun stm hstm t ht => howns (Stm.mem_of_within (hout stm hstm) t (mem_append_right _ ht))
  -- the inferred entry is what is read ahead of the first instruction
  obtain ⟨live, w₂, hlive, hinfer⟩ := yields_bind.mp hinfer
  have hdraws' := Liveness.drawsTemps_analyze hlive
  obtain ⟨flow, hflow, rfl⟩ := Liveness.eq_solve_of_analyze hlive
  have hentry : ∀ t ∈ (Liveness.solve flow.toArray).before 0, u.Owns t := fun t ht =>
    hflows.of_readAhead hflow (Liveness.readAhead_of_mem_before hflow ht)
  rw [hrest] at hinfer howned
  obtain ⟨rfl, rfl⟩ := yields_pure.mp hinfer
  refine forall_mem_cons.mpr ⟨forall_mem_append.mpr ⟨nofun, fun t ht => ?_⟩,
    fun i hi t ht => ((forall_mem_cons.mp howned).2 i hi t ht).mono hdraws'.le⟩
  replace ht := (mem_filter.mp ht).1
  exact (hentry t (Std.ExtTreeSet.mem_toList.mp ht)).mono (hle.trans (hdraws.le.trans hdraws'.le))

/-- The words that an allocation of code over temps of the session has given to
spilled temps. It has moved the top of the frame, and nothing else of it. -/
theorem exists_slot_iff {code : List Instruction} {a : Allocation} {frame' : Frame}
    (howned : ∀ i ∈ code, i.OwnedBy s) (hcode : Resolved (code.map Instruction.footprint))
    (h : Yields (allocate code frame) s (a, frame') s') :
    frame' = { frame with localTop := frame.slotAt a.spilled.length } ∧
    ∀ {offset : Int64}, (∃ t : Temp, a.slots[t]? = some offset) ↔
      ∃ k < a.spilled.length, offset = frame.slotAt k := by
  obtain ⟨bound, q, t, round, u, hrounds, -, -, ha, -⟩ := exists_rounds_of_allocate hcode h
  obtain ⟨haccount, hwords, -⟩ := hrounds.account howned
  obtain ⟨_, hfinish, -⟩ := Allocation.finish_run q round u
  rw [hfinish] at ha
  obtain ⟨rfl, rfl⟩ := Prod.mk.inj ha
  exact ⟨hwords.frame_eq, hwords.exists_temp_iff haccount.nodup⟩

/-- No spilled temp has got a word that the selected instructions access. -/
def SlotsApart (m : CompiledMethod) : Prop :=
  ∀ (t : Temp) (offset : Int64), m.allocation.slots[t]? = some offset →
    ∀ i ∈ m.code.instructions, offset ∉ i.frameOffsets

/-- The code of a method lowered from a program touches words of its frame that were
in use before registers were allocated, and spilled temps go to other words, if there
are addresses for all of them. -/
theorem slotsApart_of_tree {tree : MethodTree} (hword : 0 < s.config.wordSize) (h : tree.Sound s)
    (hm : Yields (ofTree strict tree) s m s')
    (hroom : s.config.wordSize.toInt *
      (m.frame.wordCount + m.allocation.spilled.length : Nat) ≤ 2 ^ 64) : m.SlotsApart := by
  obtain ⟨u, v, w, w', hc, hout, hcode, halloc, -⟩ := of_compile hm
  obtain ⟨_, hout'⟩ := h.exists_reblock hc
  obtain ⟨hreblocked, rfl⟩ := hout.unique hout'
  obtain ⟨-, hcontinues, hresolved, -⟩ := of_selectBody hc hout hcode
  have htouches := Selection.touchesOnly_of_ofMethod (Block.forall_mem_reblock
    (P := Stm.Within (.frame tree.frame.wordsInUse .univ .univ)) (fun _ => trivial)
    (fun _ => trivial) (fun stm hstm => (h.canonical_within hc stm hstm).mono
      (.frame (Set.subset_univ _) (Set.subset_univ _))) hout) hcode
  rw [hreblocked] at hcode
  obtain ⟨-, howned⟩ := h.readsAssigned hc hcontinues.le hcode
  intro t offset ht i hi hmem
  obtain ⟨hlast, hslots⟩ := exists_slot_iff howned hresolved halloc
  obtain ⟨k, hk, rfl⟩ := hslots.mp ⟨t, ht⟩
  obtain ⟨formals, locals, hbuilt⟩ := h.built
  -- a word in use has a lower number than that of a slot
  obtain ⟨j, hj, heq⟩ := htouches i hi _ hmem
  rw [hbuilt.laid.slotAt_eq, Frame.wordAt, Frame.wordAt, Int64.sub_left_inj,
    hbuilt.laid.wordSize] at heq
  have hcount : m.frame.wordCount = tree.frame.wordCount := by
    rw [hlast]
    rfl
  rw [hcount] at hroom
  have := Word.mul_ofNat_injective hword hroom (Nat.add_lt_add_left hk _)
    (Nat.lt_add_right _ hj) heq
  omega

/-- The spilled temps of a method read from text have the first words above the frame
pointer. -/
theorem exists_slot_iff_of_text {text : Text.MethodText}
    (hbody : ∀ n ∈ text.body.nodes, ∀ t ∈ n.temp?, s.Owns t)
    (hresult : ∀ t ∈ text.temp? resultName, s.Owns t)
    (hm : Yields (ofText strict text) s m s') {offset : Int64} :
    (∃ t : Temp, m.allocation.slots[t]? = some offset) ↔
      ∃ k < m.allocation.spilled.length, offset = s.config.wordSize * .ofNat k := by
  simp only [ofText, yields_bind, yields_lift] at hm
  obtain ⟨_, _, hcheck, frame, start, hframe, hm⟩ := hm
  obtain ⟨hvalid, rfl⟩ := of_checkConfig hcheck
  obtain ⟨rfl, rfl⟩ := Prod.mk.inj hframe
  obtain ⟨u, v, w, w', hc, hout, hcode, halloc, -⟩ := of_compile hm
  obtain ⟨hselectable, hcontinues, hresolved, -⟩ := of_selectBody hc hout hcode
  have hle := (Nat.le_succ _).trans (Stm.le_of_canonicalize hc)
  have hwithin := text.body.canonicalize_within (r := .temp {t | u.Owns t})
    (fun _ hn => ⟨hn, trivial⟩)
    (Stm.within_temp fun n hn t ht => (hbody n hn t ht).mono hle) hc (Nat.le_refl _)
  have howned := ownedBy_of_selectBody hselectable (Block.forall_mem_reblock
    (P := Stm.Within (.temp {t | u.Owns t})) (fun _ => trivial) (fun _ => trivial)
    (fun stm hstm => Stm.within_of_mem_linear hwithin hstm) hout)
    (fun t ht => (hresult t (Option.mem_toList.mp ht)).mono hle) hcontinues.le hcode
  rw [(exists_slot_iff howned hresolved halloc).2]
  simp only [Frame.slotAt, Int64.zero_add]

/-- **Where spilled temps go.** Take any session and any method that is compiled,
`strict` or not.

* If the method was lowered from a program, and there are addresses for the words of
  its variables and spilled temps, no spilled temp gets a word that the selected
  instructions access.
* If the method was read from text, the spilled temps get the first words above the
  frame pointer, as many as there are spilled temps, with offsets that wrap around. So
  they are kept apart from the memory that the selected instructions access if and
  only if these words are not accessed. -/
theorem slots_apart (strict : Bool) (s : Session) :
    (∀ program methods s', Yields (ofProgram strict program) s methods s' →
      ∀ m ∈ methods, s.config.wordSize.toInt *
          (m.frame.wordCount + m.allocation.spilled.length : Nat) ≤ 2 ^ 64 → m.SlotsApart) ∧
    ∀ text ms u, Yields (Text.readMethods text) s ms u → ∀ method ∈ ms,
      ∀ v m s', u.Continues v → Yields (ofText strict method) v m s' →
        (∀ offset, (∃ t : Temp, m.allocation.slots[t]? = some offset) ↔
          ∃ k < m.allocation.spilled.length, offset = s.config.wordSize * .ofNat k) ∧
        (m.SlotsApart ↔ ∀ i ∈ m.code.instructions, ∀ offset ∈ i.frameOffsets,
          ∀ k < m.allocation.spilled.length, offset ≠ s.config.wordSize * .ofNat k) := by
  refine ⟨fun program methods s' h m hm hroom => ?_,
    fun text ms u hread method hmethod v m s' hv hm => ?_⟩
  · simp only [ofProgram, yields_bind] at h
    obtain ⟨_, _, hcheck, table, u, htable, trees, v, htrees, hmethods⟩ := h
    obtain ⟨hvalid, rfl⟩ := of_checkConfig hcheck
    have hlowered := ((ClassTable.growing_build program).continues htable).trans
      ((MethodTree.growing_ofProgram program table).continues htrees)
    have hsound := MethodTree.sound_ofProgram htrees
    obtain ⟨-, hall⟩ := Yields.of_mapM Session.Continues.refl Session.Continues.trans
      (fun h => (growing_compile _ _ _ _ _).continues h) hmethods
    obtain ⟨tree, htree, a, b, hcontinues, hm, -⟩ := hall m hm
    have hconfig : a.config = _ := (hlowered.trans hcontinues).config
    refine slotsApart_of_tree ?_ ((hsound tree htree).mono hcontinues) hm ?_
    · exact hconfig ▸ hvalid.2.2.2
    · exact hconfig ▸ hroom
  · obtain ⟨hbody, hresult⟩ := Text.owns_of_readMethods hread hmethod
    have hconfig : v.config = s.config :=
      hv.config.trans ((Text.growing_readMethods text).continues hread).config
    have hslots : ∀ offset, (∃ t : Temp, m.allocation.slots[t]? = some offset) ↔
        ∃ k < m.allocation.spilled.length, offset = s.config.wordSize * .ofNat k := fun offset =>
      hconfig ▸ exists_slot_iff_of_text (fun n hn t ht => (hbody n hn t ht).mono hv.le)
        (fun t ht => (hresult _ t ht).mono hv.le) hm
    refine ⟨hslots, fun h i hi offset hoffset k hk heq => ?_, fun h t offset ht i hi hoffset => ?_⟩
    · obtain ⟨t, ht⟩ := (hslots offset).mpr ⟨k, hk, heq⟩
      exact h t offset ht i hi hoffset
    · obtain ⟨k, hk, heq⟩ := (hslots offset).mp ⟨t, ht⟩
      exact h i hi offset hoffset k hk heq

/-- A method that uses the word at the frame pointer, with more temps live than there
are registers. -/
def overlappingText : String :=
  "(method f (seq (move (mem (temp a)) (mem fp)) (move (mem (temp b)) (temp c))))"

/-- The temp `a` is sent to the word that the method reads. -/
theorem exists_overlap : ∃ ms u, Yields (Text.readMethods overlappingText)
    { config := { registers := 3 } } ms u ∧ ∃ method ∈ ms, ∃ v m s', u.Continues v ∧
      Yields (ofText true method) v m s' ∧
      m.allocation.slots[(⟨7, .plain "a"⟩ : Temp)]? = some 0 ∧
      ∃ i ∈ m.code.instructions, 0 ∈ i.frameOffsets := by
  let compiling : CompileM (List CompiledMethod) := do
    (← Text.readMethods overlappingText).mapM (ofText true)
  let overlaps (m : CompiledMethod) : Bool :=
    m.allocation.slots[(⟨7, .plain "a"⟩ : Temp)]? = some 0 ∧
      ∃ i ∈ m.code.instructions, 0 ∈ i.frameOffsets
  obtain ⟨methods, s', hmethods, hany⟩ : ∃ methods s',
      Yields compiling { config := { registers := 3 } } methods s' ∧ methods.any overlaps = true :=
    exists_yields_of_any (by decide +kernel)
  obtain ⟨ms, u, hread, hmethods⟩ := yields_bind.mp hmethods
  obtain ⟨m, hm, hoverlaps⟩ := any_eq_true.mp hany
  obtain ⟨-, hall⟩ := Yields.of_mapM Session.Continues.refl Session.Continues.trans
    (fun h => (growing_ofText true _).continues h) hmethods
  obtain ⟨method, hmethod, v, w, hv, hm, -⟩ := hall m hm
  exact ⟨ms, u, hread, method, hmethod, v, m, w, hv, hm, of_decide_eq_true hoverlaps⟩

/-- The text is compiled, and every temp has a register, but the word at the frame
pointer holds the temp `a` when the method reads it. -/
theorem not_slotsApart_overlappingText : ∃ ms u, Yields (Text.readMethods overlappingText)
    { config := { registers := 3 } } ms u ∧ ∃ method ∈ ms, ∃ v m s', u.Continues v ∧
      Yields (ofText true method) v m s' ∧ ¬ m.SlotsApart := by
  obtain ⟨ms, u, hread, method, hmethod, v, m, s', hv, hm, hslot, i, hi, hoffset⟩ := exists_overlap
  exact ⟨ms, u, hread, method, hmethod, v, m, s', hv, hm, fun h => h _ 0 hslot i hi hoffset⟩

/-- In one session: a program whose methods use their frames, and the text above. -/
theorem slots_apart_summingProgram :
    (∃ methods s', Yields (ofProgram false summingProgram) { config := { registers := 3 } } methods
      s' ∧ ∀ m ∈ methods, m.SlotsApart) ∧
    ∃ ms u, Yields (Text.readMethods overlappingText) { config := { registers := 3 } } ms u ∧
      ∃ method ∈ ms, ∃ v m s', u.Continues v ∧ Yields (ofText true method) v m s' ∧
        ∀ offset, (∃ t : Temp, m.allocation.slots[t]? = some offset) ↔
          ∃ k < m.allocation.spilled.length, offset = 4 * .ofNat k := by
  constructor
  · obtain ⟨methods, s', hmethods, hrooms⟩ : ∃ methods s', Yields (ofProgram false summingProgram)
        { config := { registers := 3 } } methods s' ∧ methods.all (fun m =>
          (4 : Int) * (m.frame.wordCount + m.allocation.spilled.length : Nat) ≤ 2 ^ 64) = true :=
      exists_yields_of_any (by decide +kernel)
    exact ⟨methods, s', hmethods, fun m hm => (slots_apart false _).1 _ methods s' hmethods m hm
      (of_decide_eq_true (all_eq_true.mp hrooms m hm))⟩
  · obtain ⟨ms, u, hread, method, hmethod, v, m, s', hv, hm, -⟩ := exists_overlap
    exact ⟨ms, u, hread, method, hmethod, v, m, s', hv, hm,
      ((slots_apart true _).2 _ ms u hread method hmethod v m s' hv hm).1⟩

end CompiledMethod

end TreeBackend
