import TreeBackend.Proofs.TidyBodies

/-!
# Which bodies are reblocked

Jumps are checked last, on the body as it was tidied up. A hop is gone by then,
so nobody asks how often its label is placed – the label right after it may be one
of two. Of every other jump and of every branch the check sees all there is: tidying
up keeps it, and keeps each copy of its label.

A body **needs** the labels to which something other than a hop leads. It is
reblocked if and only if it places each of them once (`Block.reblock_accepts_iff`).
-/

namespace TreeBackend

open List

namespace Block

variable {stms : List Stm}

/-! ## Labels that are needed -/

/-- A body **needs** a label if a jump or a branch of it, other than a hop, leads
there. -/
def Needs (stms : List Stm) (l : Label) : Prop :=
  ∃ before stm after, stms = before ++ stm :: after ∧ stm.target? = some l ∧ isHop stm after = false

theorem needs_cons {s : Stm} {rest : List Stm} {l : Label} :
    Needs (s :: rest) l ↔ s.target? = some l ∧ isHop s rest = false ∨ Needs rest l := by
  constructor
  · rintro ⟨before, stm, after, heq, htarget⟩
    cases before with
    | nil =>
      obtain ⟨rfl, rfl⟩ := List.cons.inj heq
      exact .inl htarget
    | cons s' before =>
      obtain ⟨rfl, rfl⟩ := List.cons.inj heq
      exact .inr ⟨before, stm, after, rfl, htarget⟩
  · rintro (htarget | ⟨before, stm, after, rfl, htarget⟩)
    · exact ⟨[], s, rest, rfl, htarget⟩
    · exact ⟨s :: before, stm, after, rfl, htarget⟩

/-- The labels that are used once the hops are gone are the labels needed. -/
theorem needs_iff {l : Label} : Needs stms l ↔ l ∈ usedLabels stms := by
  induction stms with
  | nil => simp [Needs, usedLabels, withoutHops]
  | cons s rest ih =>
    rw [needs_cons, ih, usedLabels, usedLabels, withoutHops]
    cases isHop s rest with
    | true => simp
    | false =>
      rw [if_neg Bool.false_ne_true, mem_filterMap, mem_filterMap, exists_mem_cons_iff]
      simp

/-! ## Labels that are placed -/

theorem filterMap_placed?_withoutHops (stms : List Stm) :
    (withoutHops stms).filterMap Stm.placed? = stms.filterMap Stm.placed? := by
  induction stms with
  | nil => rfl
  | cons s rest ih =>
    rw [withoutHops]
    split
    · next hhop =>
      obtain ⟨l, rest', rfl, rfl⟩ := isHop_iff.mp hhop
      exact ih
    · rw [filterMap_cons, filterMap_cons, ih]

/-- Every copy of a label that is used is still there, and no other label. -/
theorem filterMap_placed?_tidied (stms : List Stm) : (tidied stms).filterMap Stm.placed? =
      (stms.filterMap Stm.placed?).filter (· ∈ usedLabels stms) := by
  rw [tidied, dropUnusedLabels_eq, filterMap_filter, ← filterMap_placed?_withoutHops stms,
    filter_filterMap]
  refine filterMap_congr fun s _ => ?_
  cases s with
  | label l =>
    show (if decide (l ∈ usedLabels stms) = true then some l else none) = _
    simp [Stm.placed?, Option.filter]
  | move | exp | jump | cjump | seq => rfl

theorem count_placed_tidied {l : Label} (hl : l ∈ usedLabels stms) :
    ((tidied stms).filterMap Stm.placed?).count l = (stms.filterMap Stm.placed?).count l := by
  rw [filterMap_placed?_tidied]
  exact count_filter (decide_eq_true hl)

/-! ## The check -/

/-- The jumps of a tidied body are resolved just if every label that is used is placed
once. -/
theorem resolved_tidied_iff : Footprint.Resolved ((tidied stms).map Stm.footprint) ↔
    ∀ l ∈ usedLabels stms, (stms.filterMap Stm.placed?).count l = 1 := by
  refine ⟨fun hresolved l hl => ?_, resolved_tidied⟩
  rw [← count_placed_tidied hl]
  refine count_placed_of_resolved hresolved ?_
  rwa [filterMap_target?_tidied]

theorem layout_cut_of_known {s : Session}
    (hknown : ∀ l ∈ stms.filterMap Stm.target?, l ∈ s.labels) :
    layout ((cut stms).run s).1 = tidied stms :=
  layout_cut fun stm hstm l hl => hknown l (mem_filterMap.mpr ⟨stm, hstm, hl⟩)

section Picks

variable {pick : List Label → Option Label} (hpick : Label.Picks pick)

include hpick

/-- What is wrong with a body that does not pass the check: a label is placed twice, or
one that is jumped to is not placed. -/
theorem of_checkTargetsBy_eq_error {e : Error} (h : checkTargetsBy pick stms = .error e) :
    ∃ l, e = .malformed (.labelInBlocksTwice l) ∧ 1 < (stms.filterMap Stm.placed?).count l ∨
      e = .undefinedLabel l ∧ l ∈ stms.filterMap Stm.target? ∧ l ∉ stms.filterMap Stm.placed? := by
  unfold checkTargetsBy at h
  dsimp only at h
  split at h
  · next l hpicked =>
    exact ⟨l, .inl ⟨(Except.error.inj h).symm, hpick.repeated hpicked⟩⟩
  · split at h
    · next l hfound =>
      have hmissing := List.find?_some hfound
      exact ⟨l, .inr ⟨(Except.error.inj h).symm, mem_of_find?_eq_some hfound,
        by simpa using hmissing⟩⟩
    · cases h

variable {s : Session} (hknown : ∀ l ∈ stms.filterMap Stm.target?, l ∈ s.labels)

include hknown

/-- Nothing but the check decides whether a body is reblocked. -/
theorem exists_yields_reblockBy_iff : (∃ out s', Yields (reblockBy pick stms) s out s') ↔
      Footprint.Resolved ((tidied stms).map Stm.footprint) := by
  constructor
  · rintro ⟨out, s', h⟩
    obtain ⟨⟨blocks, rfl, rfl⟩, -, hcheck⟩ := of_reblock h
    rwa [layout_cut_of_known hknown, checkTargetsBy_eq_ok_iff hpick] at hcheck
  · exact fun hresolved => ⟨_, _, yields_reblockBy hpick
      (fun stm hstm l hl => hknown l (mem_filterMap.mpr ⟨stm, hstm, hl⟩)) hresolved⟩

end Picks

theorem checkTargetsBy_of_failsWith {pick : List Label → Option Label} {s : Session} {e : Error}
    (hknown : ∀ l ∈ stms.filterMap Stm.target?, l ∈ s.labels)
    (h : FailsWith (reblockBy pick stms) s e) : checkTargetsBy pick (tidied stms) = .error e := by
  simp only [reblockBy, failsWith_bind, not_failsWith_lift, yields_lift, failsWith_liftExcept,
    not_failsWith_pure, false_or, and_false, exists_false, or_false] at h
  obtain ⟨blocks, u, hcut, hcheck⟩ := h
  rw [← layout_cut_of_known hknown, hcut]
  exact hcheck

/-- **Reblocking accepts just the bodies whose jumps resolve.** Let the session know the
labels that are jumped to in a body. The body is reblocked if and only if every label that
it needs – to which a branch leads, or a jump that is not to the label right after it – is
placed exactly once. If it is not reblocked, the error names such a label: one that is
placed nowhere, or one that is placed more than once. All this holds whichever label is
picked where several are placed more than once. -/
theorem reblock_accepts_iff {pick : List Label → Option Label} (hpick : Label.Picks pick)
    {stms : List Stm} {s : Session} (hknown : ∀ l ∈ stms.filterMap Stm.target?, l ∈ s.labels) :
    ((∃ out s', Yields (reblockBy pick stms) s out s') ↔
      ∀ l, Needs stms l → (stms.filterMap Stm.placed?).count l = 1) ∧
    ∀ e, FailsWith (reblockBy pick stms) s e → ∃ l, Needs stms l ∧
      (e = .undefinedLabel l ∧ (stms.filterMap Stm.placed?).count l = 0 ∨
        e = .malformed (.labelInBlocksTwice l) ∧ 1 < (stms.filterMap Stm.placed?).count l) := by
  simp only [needs_iff]
  refine ⟨(exists_yields_reblockBy_iff hpick hknown).trans resolved_tidied_iff, fun e hfails => ?_⟩
  obtain ⟨l, ⟨rfl, hcount⟩ | ⟨rfl, htarget, hmissing⟩⟩ :=
    of_checkTargetsBy_eq_error hpick (checkTargetsBy_of_failsWith hknown hfails)
  · have hplaced := count_pos_iff.mp (Nat.zero_lt_of_lt hcount)
    have hused := (mem_placed_tidied.mp hplaced).1
    rw [count_placed_tidied hused] at hcount
    exact ⟨l, hused, .inr ⟨rfl, hcount⟩⟩
  · rw [filterMap_target?_tidied] at htarget
    refine ⟨l, htarget, .inl ⟨rfl, ?_⟩⟩
    rw [← count_placed_tidied htarget]
    exact count_eq_zero_of_not_mem hmissing

/-- A branch to a label that is placed twice. -/
def branchToDoubled : List Stm := let x : Exp := .temp ⟨7, .plain "x"⟩
  [.cjump .lt x (.const 0) ⟨"end"⟩, .label ⟨"end"⟩, .move x (.const 1), .label ⟨"end"⟩]

/-- A branch to the label right after it is no hop: the body needs the label, and it is
not reblocked. -/
theorem reblock_accepts_iff_branchToDoubled : let s : Session := .ofLabels ["end"]
    (∀ l ∈ branchToDoubled.filterMap Stm.target?, l ∈ s.labels) ∧ Needs branchToDoubled ⟨"end"⟩ ∧
    ¬ (∃ out s', Yields (reblock branchToDoubled) s out s') ∧
    ∃ e, FailsWith (reblock branchToDoubled) s e ∧ ∃ l, Needs branchToDoubled l ∧
      (e = .undefinedLabel l ∧ (branchToDoubled.filterMap Stm.placed?).count l = 0 ∨
        e = .malformed (.labelInBlocksTwice l) ∧
          1 < (branchToDoubled.filterMap Stm.placed?).count l) := by
  intro s
  have hknown : ∀ l ∈ branchToDoubled.filterMap Stm.target?, l ∈ s.labels := by decide
  have hneeds : Needs branchToDoubled ⟨"end"⟩ := ⟨[], _, _, rfl, rfl, rfl⟩
  obtain ⟨haccepts, herror⟩ := reblock_accepts_iff Label.picks_firstRepeated hknown
  have hnot : ¬ ∃ out s', Yields (reblock branchToDoubled) s out s' := fun hyields =>
    absurd (haccepts.mp hyields _ hneeds) (by decide)
  obtain ⟨e, hfails⟩ := (yields_or_failsWith (reblock branchToDoubled) s).resolve_left hnot
  exact ⟨hknown, hneeds, hnot, e, hfails, herror e hfails⟩

/-- A jump to the label right after it, which is placed twice. -/
def hopToDoubled : List Stm := let x : Exp := .temp ⟨7, .plain "x"⟩
  [.jump ⟨"end"⟩, .label ⟨"end"⟩, .move x (.const 1), .label ⟨"end"⟩]

/-- The hop is gone before jumps are checked, and the body is reblocked all the same. -/
theorem reblock_accepts_hopToDoubled : let s : Session := .ofLabels ["end"]
    (∀ l ∈ hopToDoubled.filterMap Stm.target? ++ hopToDoubled.filterMap Stm.placed?, l ∈ s.labels) ∧
    ¬ ((∃ out s', Yields (reblock hopToDoubled) s out s') ↔
      ∀ l ∈ hopToDoubled.filterMap Stm.target?,
        (hopToDoubled.filterMap Stm.placed?).count l = 1) := by
  refine ⟨by decide, fun haccepts => ?_⟩
  have honce := haccepts.mp ⟨_, _, rfl⟩ ⟨"end"⟩ (by decide)
  exact absurd honce (by decide)

end Block

end TreeBackend
