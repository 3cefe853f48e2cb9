import TreeBackend.Proofs.MethodStages
import TreeBackend.Proofs.Reblocking

/-!
# What tidying up leaves, and what it misses

Going through blocks leaves no trace of them: what comes out is the body without
its hops, and then without the labels that nothing jumps to
(`Block.layout_leaves_no_trace`).

Each of the two steps is taken once, and either can make work for the first.
A label that is taken out may have stood between a jump and its label, and so may
a hop. A jump that comes to stand right before its label in this way is a
**skip** of the body. Skips are all that tidying up misses: without one, a
reblocked body has no hop, and is reblocked to itself (`Block.reblock_stable_iff`).
-/

namespace TreeBackend

open List

namespace Block

variable {stms : List Stm}

/-! ## Statements that stay -/

theorem staysFor_eq (used : List Label) (stm : Stm) :
    staysFor used stm = stm.placed?.all (· ∈ used) := by
  unfold staysFor
  cases stm.placed? <;> rfl

/-- Only jumps are hops. -/
theorem filter_withoutHops {p : Stm → Bool} (hp : ∀ l, p (.jump l) = false) (stms : List Stm) :
    (withoutHops stms).filter p = stms.filter p := by
  induction stms with
  | nil => rfl
  | cons s rest ih =>
    rw [withoutHops]
    split
    · next hhop =>
      obtain ⟨l, rest', rfl, rfl⟩ := isHop_iff.mp hhop
      rw [ih]
      exact (filter_cons_of_neg (by simp [hp])).symm
    · rw [filter_cons, filter_cons, ih]

/-- Only jumps and labels are taken out. -/
theorem filter_tidied {p : Stm → Bool} (hjump : ∀ l, p (.jump l) = false)
    (hlabel : ∀ l, p (.label l) = false) (stms : List Stm) :
    (tidied stms).filter p = stms.filter p := by
  rw [tidied, dropUnusedLabels_eq, filter_filter, ← filter_withoutHops hjump]
  refine filter_congr fun s _ => ?_
  cases s with
  | label l => rw [hlabel, Bool.false_and]
  | move | exp | jump | cjump | seq => exact Bool.and_true _

/-- **Blocks leave no trace.** Let the session know the labels that are jumped to in a
body. Cut into blocks and laid out again, the body has lost, first, every jump to the
label that comes next, and then every label to which none of the jumps and branches left
leads. Nothing was added or moved: no label that was drawn on the way is placed or jumped
to, and all statements but jumps and labels are there as they were. -/
theorem layout_leaves_no_trace {stms : List Stm} {s s' : Session} {blocks : List Block}
    (hknown : ∀ l ∈ stms.filterMap Stm.target?, l ∈ s.labels)
    (hcut : (cut stms).run s = (blocks, s')) :
    layout blocks = ((withoutHops stms).filter fun stm =>
      stm.placed?.all (· ∈ (withoutHops stms).filterMap Stm.target?)) ∧
    (layout blocks).Sublist stms ∧
    (∀ l ∈ s'.labels, l ∉ s.labels →
      ∀ stm ∈ layout blocks, stm.placed? ≠ some l ∧ stm.target? ≠ some l) ∧
    (layout blocks).filter (·.kind ∉ [.jump, .label]) = stms.filter (·.kind ∉ [.jump, .label]) := by
  have hlayout : layout blocks = tidied stms := by
    rw [← layout_cut fun stm hstm l hl => hknown l (mem_filterMap.mpr ⟨stm, hstm, hl⟩), hcut]
  have hused : ∀ l ∈ usedLabels stms, l ∈ s.labels := fun l hl =>
    hknown l (((withoutHops_sublist stms).filterMap _).subset hl)
  rw [hlayout]
  refine ⟨filter_congr fun stm _ => staysFor_eq _ stm, tidied_sublist stms, ?_,
    filter_tidied (fun _ => rfl) (fun _ => rfl) stms⟩
  intro l _ hnew stm hstm
  refine ⟨fun hplaced => ?_, fun htarget => ?_⟩
  · have hmem := mem_placed_tidied.mp (mem_filterMap.mpr ⟨stm, hstm, hplaced⟩)
    exact hnew (hused l hmem.1)
  · refine hnew (hused l ?_)
    rw [← filterMap_target?_tidied]
    exact mem_filterMap.mpr ⟨stm, hstm, htarget⟩

/-- The tangled loop is cut with a fresh label, of which nothing is left. -/
theorem layout_leaves_no_trace_tangledLoop :
    let s : Session := .ofLabels ["f", "test", "spare", "out", "end"]
    (∀ l ∈ tangledLoop.filterMap Stm.target?, l ∈ s.labels) ∧
    ∃ blocks s', (cut tangledLoop).run s = (blocks, s') ∧ s'.labels = s.labels ++ [⟨"L0"⟩] ∧
      (layout blocks).map Stm.kind = [.label, .move, .cjump, .jump, .exp, .label, .label, .cjump] ∧
      ∀ stm ∈ layout blocks, stm.placed? ≠ some ⟨"L0"⟩ ∧ stm.target? ≠ some ⟨"L0"⟩ := by
  intro s
  have hknown : ∀ l ∈ tangledLoop.filterMap Stm.target?, l ∈ s.labels := by decide
  obtain ⟨blocks, s', hcut, hlabels⟩ : ∃ blocks s', (cut tangledLoop).run s = (blocks, s') ∧
      s'.labels = s.labels ++ [⟨"L0"⟩] :=
    ⟨_, _, rfl, by decide +kernel⟩
  obtain ⟨hlayout, -, hfresh, -⟩ := layout_leaves_no_trace hknown hcut
  refine ⟨hknown, blocks, s', hcut, hlabels, ?_, hfresh ⟨"L0"⟩ (by simp [hlabels]) (by decide)⟩
  rw [hlayout]
  decide +kernel

/-! ## Bodies without hops -/

/-- No jump of the body is to the label right after it. -/
def HopFree (stms : List Stm) : Prop := ∀ l, ¬ [.jump l, .label l] <:+: stms

theorem hopFree_cons {s : Stm} {rest : List Stm} :
    HopFree (s :: rest) ↔ isHop s rest = false ∧ HopFree rest := by
  have hpair : ∀ l, [.jump l, .label l] <+: s :: rest ↔
      ∃ rest', s = .jump l ∧ rest = .label l :: rest' := by
    intro l
    constructor
    · rintro ⟨rest', heq⟩
      obtain ⟨rfl, rfl⟩ := List.cons.inj heq
      exact ⟨rest', rfl, rfl⟩
    · rintro ⟨rest', rfl, rfl⟩
      exact ⟨rest', rfl⟩
  simp only [HopFree, infix_cons_iff, not_or, forall_and, hpair, ← not_exists, ← isHop_iff,
    Bool.not_eq_true]

/-- A body without hops is left as it is, and no other. -/
theorem withoutHops_eq_self_iff : withoutHops stms = stms ↔ HopFree stms := by
  induction stms with
  | nil => simp [withoutHops, HopFree]
  | cons s rest ih =>
    rw [withoutHops, hopFree_cons]
    cases isHop s rest with
    | false => simpa using ih
    | true =>
      have hlt : (withoutHops rest).length < (s :: rest).length :=
        Nat.lt_succ_of_le (withoutHops_sublist rest).length_le
      simpa using fun heq : withoutHops rest = s :: rest => absurd (congrArg _ heq) hlt.ne

/-- A tidied body is left as it is just if it has no hops: all its labels are used. -/
theorem tidied_tidied_iff : tidied (tidied stms) = tidied stms ↔ HopFree (tidied stms) := by
  rw [← withoutHops_eq_self_iff]
  constructor
  · intro heq
    have hsublist : (tidied (tidied stms)).Sublist (withoutHops (tidied stms)) := filter_sublist
    rw [heq] at hsublist
    exact (withoutHops_sublist _).antisymm hsublist
  · intro heq
    rw [tidied, heq, dropUnusedLabels_eq, filterMap_target?_tidied, filter_eq_self]
    exact fun stm hstm => (mem_filter.mp hstm).2

/-! ## Skips -/

/-- Two elements stand side by side in a filtered list just if there is nothing between
them but what is filtered out. -/
theorem pair_infix_filter_iff {α : Type} {p : α → Bool} {x y : α} (hx : p x = true)
    (hy : p y = true) {xs : List α} :
    [x, y] <:+: xs.filter p ↔
      ∃ between, x :: (between ++ [y]) <:+: xs ∧ ∀ z ∈ between, ¬ p z = true := by
  constructor
  · rintro ⟨before, after, heq⟩
    rw [append_assoc] at heq
    obtain ⟨xs₁, xs₂, rfl, -, hfilter⟩ := filter_eq_append_iff.mp heq.symm
    obtain ⟨xs₃, xs₄, rfl, -, -, hfilter⟩ := filter_eq_cons_iff.mp hfilter
    obtain ⟨between, xs₅, rfl, hbetween, -, -⟩ := filter_eq_cons_iff.mp hfilter
    exact ⟨between, ⟨xs₁ ++ xs₃, xs₅, by simp⟩, hbetween⟩
  · rintro ⟨between, ⟨before, after, rfl⟩, hbetween⟩
    refine ⟨before.filter p, after.filter p, ?_⟩
    simp [hx, hy, filter_eq_nil_iff.mpr hbetween]

/-- A body has a **skip** if, once its hops are gone, a jump is followed by its label
but for labels that nothing jumps to. -/
def HasSkip (stms : List Stm) : Prop :=
  ∃ l, ∃ spare : List Label, .jump l :: (spare.map .label ++ [.label l]) <:+: withoutHops stms ∧
    ∀ k ∈ spare, k ∉ usedLabels stms

theorem exists_spare {used : List Label} {between : List Stm}
    (h : ∀ stm ∈ between, ¬ staysFor used stm = true) :
    ∃ spare : List Label, spare.map .label = between ∧ ∀ k ∈ spare, k ∉ used := by
  induction between with
  | nil => exact ⟨[], rfl, forall_mem_nil _⟩
  | cons stm rest ih =>
    rw [forall_mem_cons] at h
    obtain ⟨spare, rfl, hspare⟩ := ih h.2
    cases stm with
    | label k =>
      refine ⟨k :: spare, rfl, forall_mem_cons.mpr ⟨fun hk => ?_, hspare⟩⟩
      exact h.1 (decide_eq_true hk)
    | move | exp | jump | cjump | seq => exact absurd rfl h.1

/-- **Skips** are what becomes a hop when a body is tidied up. -/
theorem hopFree_tidied_iff : HopFree (tidied stms) ↔ ¬ HasSkip stms := by
  rw [HopFree, HasSkip, not_exists]
  refine forall_congr' fun l => not_congr ?_
  have hused : .jump l ∈ withoutHops stms → staysFor (usedLabels stms) (.label l) = true :=
    fun hjump => decide_eq_true (mem_filterMap.mpr ⟨_, hjump, rfl⟩)
  constructor
  · intro hpair
    have hjump : .jump l ∈ withoutHops stms := mem_of_mem_filter (hpair.subset (by simp))
    obtain ⟨between, hinfix, hbetween⟩ := (pair_infix_filter_iff rfl (hused hjump)).mp hpair
    obtain ⟨spare, rfl, hspare⟩ := exists_spare hbetween
    exact ⟨spare, hinfix, hspare⟩
  · rintro ⟨spare, hinfix, hspare⟩
    have hjump : .jump l ∈ withoutHops stms := hinfix.subset (by simp)
    refine (pair_infix_filter_iff rfl (hused hjump)).mpr ⟨_, hinfix, fun stm hstm => ?_⟩
    obtain ⟨k, hk, rfl⟩ := mem_map.mp hstm
    exact fun hstays => hspare k hk (of_decide_eq_true hstays)

/-! ## Reblocking again -/

/-- A checked body places each label that it jumps to once. -/
theorem count_placed_of_resolved (h : Footprint.Resolved (stms.map Stm.footprint)) {l : Label}
    (hl : l ∈ stms.filterMap Stm.target?) : (stms.filterMap Stm.placed?).count l = 1 := by
  rw [← Footprint.labels_body]
  refine count_eq_one_of_mem h.nodup (h.placed l ?_)
  rw [Footprint.jumps_body]
  exact hl

/-- **Reblocked bodies are stable but for skips.** Let the session know the labels that
are jumped to in a body that is reblocked. Every label of what comes out is jumped to.
No jump of it is to the label right after it if and only if the body has no skip; and
it is reblocked again, to itself, if and only if the body has no skip. -/
theorem reblock_stable_iff {stms out : List Stm} {s s' : Session}
    (hknown : ∀ l ∈ stms.filterMap Stm.target?, l ∈ s.labels)
    (h : Yields (reblock stms) s out s') :
    (∀ l, .label l ∈ out → l ∈ out.filterMap Stm.target?) ∧
    (HopFree out ↔ ¬ HasSkip stms) ∧
    ∃ again s'', Yields (reblock out) s' again s'' ∧ (again = out ↔ ¬ HasSkip stms) := by
  obtain ⟨⟨blocks, rfl, rfl⟩, rfl, hcheck⟩ := of_reblock h
  rw [layout_cut fun stm hstm l hl => hknown l (mem_filterMap.mpr ⟨stm, hstm, hl⟩)] at hcheck ⊢
  have hknown' : ∀ stm ∈ tidied stms, ∀ l, stm.target? = some l →
      l ∈ ((cut stms).run s).2.labels := by
    intro stm hstm l hl
    refine (cutFrom_continues [] stms s).labels l (hknown l ?_)
    exact mem_filterMap.mpr ⟨stm, (tidied_sublist stms).subset hstm, hl⟩
  have honce : ∀ stm ∈ tidied stms, ∀ l, stm.target? = some l →
      ((tidied stms).filterMap Stm.placed?).count l = 1 := fun stm hstm l hl =>
    count_placed_of_resolved (resolved_of_checkTargets hcheck) (mem_filterMap.mpr ⟨stm, hstm, hl⟩)
  refine ⟨fun l hl => ?_, hopFree_tidied_iff, _, _, yields_reblock hknown' honce,
    tidied_tidied_iff.trans hopFree_tidied_iff⟩
  rw [filterMap_target?_tidied]
  exact (mem_placed_tidied.mp (mem_filterMap_placed?.mpr hl)).1

/-- The tangled loop has no skip: it is reblocked once and for all. -/
theorem reblock_stable_iff_tangledLoop :
    let s : Session := .ofLabels ["f", "test", "spare", "out", "end"]
    (∀ l ∈ tangledLoop.filterMap Stm.target?, l ∈ s.labels) ∧
    ∃ out s', Yields (reblock tangledLoop) s out s' ∧ HopFree out ∧ ¬ HasSkip tangledLoop ∧
      ∃ s'', Yields (reblock out) s' out s'' := by
  intro s
  have hknown : ∀ l ∈ tangledLoop.filterMap Stm.target?, l ∈ s.labels := by decide
  obtain ⟨s', h⟩ : ∃ s', Yields (reblock tangledLoop) s (tidied tangledLoop) s' := ⟨_, rfl⟩
  have hfree : HopFree (tidied tangledLoop) := withoutHops_eq_self_iff.mp rfl
  obtain ⟨-, hskip, again, s'', hagain, hstable⟩ := reblock_stable_iff hknown h
  obtain rfl := hstable.mpr (hskip.mp hfree)
  exact ⟨hknown, _, s', h, hfree, hskip.mp hfree, s'', hagain⟩

/-- A jump over a label that nothing jumps to. -/
def overSpareLabel : List Stm := let x : Exp := .temp ⟨7, .plain "x"⟩
  [.move x (.const 0), .jump ⟨"end"⟩, .label ⟨"spare"⟩, .label ⟨"end"⟩, .move x (.const 1)]

/-- Once the spare label is gone, the jump is to the label right after it, and it takes
another round to see that. -/
theorem reblock_unstable_overSpareLabel : ∃ out s' again s'',
    Yields (reblock overSpareLabel) (.ofLabels ["end", "spare"]) out s' ∧
    [.jump ⟨"end"⟩, .label ⟨"end"⟩] <:+: out ∧
    Yields (reblock out) s' again s'' ∧ again ≠ out := by
  refine ⟨_, _, _, _, rfl, ⟨[_], [_], rfl⟩, rfl, fun heq => ?_⟩
  exact absurd (congrArg List.length heq) (by decide)

end Block

end TreeBackend
