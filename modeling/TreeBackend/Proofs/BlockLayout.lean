import TreeBackend.Proofs.FreshLabels
import TreeBackend.Tree.Block

/-!
# Blocks laid out again

Cutting a body into blocks adds jumps and labels, and laying the blocks out
takes statements away. What comes out can be said without any blocks: the body
without its **hops** – jumps to the label right after them – and then without
the labels that nothing jumps to (`layout_cut`). Every jump that was added is a
hop of the layout, and a fresh label is one that nothing jumps to, so neither
is left.
-/

namespace TreeBackend

open List

variable {stms : List Stm} {l : Label}

namespace Block

/-! ## Bodies without hops -/

/-- A **hop**: a jump to the label that comes next. -/
def isHop (s : Stm) (rest : List Stm) : Bool := match s, rest with
  | .jump l, .label next :: _ => l = next
  | _, _ => false

/-- A body without its hops. -/
def withoutHops : List Stm → List Stm
  | [] => []
  | s :: rest => if isHop s rest then withoutHops rest else s :: withoutHops rest

/-- Whether the statement stays when only the labels in `used` do. -/
def staysFor (used : List Label) (s : Stm) : Bool := match s.placed? with
  | some l => l ∈ used
  | none => true

theorem dropUnusedLabels_eq (stms : List Stm) :
    dropUnusedLabels stms = stms.filter (staysFor (stms.filterMap Stm.target?)) := rfl

theorem isHop_iff {s : Stm} {rest : List Stm} :
    isHop s rest = true ↔ ∃ l rest', s = .jump l ∧ rest = .label l :: rest' := by
  constructor
  · intro h
    unfold isHop at h
    split at h
    · next l next rest' =>
      obtain rfl := of_decide_eq_true h
      exact ⟨l, rest', rfl, rfl⟩
    · cases h
  · rintro ⟨l, rest', rfl, rfl⟩
    exact decide_eq_true rfl

theorem withoutHops_sublist (stms : List Stm) : (withoutHops stms).Sublist stms := by
  induction stms with
  | nil => exact .slnil
  | cons s rest ih =>
    rw [withoutHops]
    split
    · exact ih.cons s
    · exact ih.cons_cons s

/-- A label is not a hop. -/
theorem mem_withoutHops_label (h : Stm.label l ∈ stms) : Stm.label l ∈ withoutHops stms := by
  induction stms with
  | nil => cases h
  | cons s rest ih =>
    rw [withoutHops]
    split
    · next hhop =>
      obtain ⟨l', rest', rfl, rfl⟩ := isHop_iff.mp hhop
      exact ih ((mem_cons.mp h).resolve_left Stm.noConfusion)
    · exact mem_cons.mpr ((mem_cons.mp h).imp_right ih)

/-- Labels are no targets: the same jumps are left without them. -/
theorem filterMap_target?_filter_staysFor (used : List Label) (stms : List Stm) :
    (stms.filter (staysFor used)).filterMap Stm.target? = stms.filterMap Stm.target? := by
  rw [filterMap_filter]
  refine filterMap_congr fun s _ => ?_
  split
  · rfl
  · next hstays =>
    cases s with
    | label l => rfl
    | move | exp | jump | cjump | seq => exact absurd rfl hstays

/-! ## Blocks and their layout -/

theorem cutFrom_of_not_isJump (current : List Stm) {stm : Stm} (rest : List Stm)
    (hlabel : ∀ l, stm = .label l → False) (hjump : ¬ stm.isJump = true) :
    cutFrom current (stm :: rest) = cutFrom (current ++ [stm]) rest := by
  cases stm with
  | label l => exact absurd rfl (hlabel l)
  | jump | cjump => exact absurd rfl hjump
  | move | exp | seq =>
    cases rest with
    | nil => rfl
    | cons s rest => cases s <;> rfl

/-- **What becomes of a body**: with `current` in the block under construction, `stms`
is cut into `blocks`, and the session `s` is `t` afterwards. -/
inductive Cuts : List Stm → List Stm → Session → List Block → Session → Prop
  | nil (s : Session) : Cuts [] [] s [] s
  | last {current : List Stm} (s : Session) (hne : current ≠ []) : Cuts current [] s [⟨current⟩] s
  | start {l : Label} {rest : List Stm} {s t : Session} {blocks : List Block}
      (others : Cuts [.label l] rest s blocks t) : Cuts [] (.label l :: rest) s blocks t
  | label {current rest : List Stm} {l : Label} {s t : Session} {blocks : List Block}
      (hne : current ≠ []) (others : Cuts [.label l] rest s blocks t) :
      Cuts current (.label l :: rest) s (⟨current ++ [.jump l]⟩ :: blocks) t
  | exit {current : List Stm} {stm : Stm} (s : Session) (hjump : stm.isJump = true) :
      Cuts current [stm] s [⟨current ++ [stm]⟩] s
  | before {current rest : List Stm} {stm : Stm} {l : Label} {s t : Session}
      {blocks : List Block} (hjump : stm.isJump = true)
      (others : Cuts [] (.label l :: rest) s blocks t) :
      Cuts current (stm :: .label l :: rest) s (⟨current ++ stm :: bridge stm l⟩ :: blocks) t
  | between {current rest : List Stm} {stm stm' : Stm} {l : Label} {s u t : Session}
      {blocks : List Block} (hjump : stm.isJump = true) (hnext : ∀ l, stm' ≠ .label l)
      (hfresh : Session.freshLabel.run s = (l, u))
      (others : Cuts [.label l] (stm' :: rest) u blocks t) :
      Cuts current (stm :: stm' :: rest) s (⟨current ++ stm :: bridge stm l⟩ :: blocks) t
  | plain {current rest : List Stm} {stm : Stm} {s t : Session} {blocks : List Block}
      (hlabel : ∀ l, stm ≠ .label l) (hjump : stm.isJump = false)
      (others : Cuts (current ++ [stm]) rest s blocks t) : Cuts current (stm :: rest) s blocks t

theorem cuts_cutFrom (current stms : List Stm) (s : Session) :
    Cuts current stms s ((cutFrom current stms).run s).1 ((cutFrom current stms).run s).2 := by
  induction current, stms using cutFrom.induct generalizing s with
  | case1 current =>
    cases current with
    | nil => exact .nil s
    | cons => exact .last s (cons_ne_nil _ _)
  | case2 current next rest ih =>
    cases current with
    | nil => exact .start (ih s)
    | cons => exact .label (cons_ne_nil _ _) (ih s)
  | case3 current stm hlabel hjump =>
    rw [cutFrom, if_pos hjump]
    · exact .exit s hjump
    · exact hlabel
  | case4 current stm hlabel hjump next rest ih =>
    rw [cutFrom.eq_4 current stm next rest hlabel, if_pos hjump]
    exact .before hjump (ih s)
  | case5 current stm hlabel hjump stm' rest hlabel' ih =>
    rw [cutFrom, if_pos hjump]
    · exact .between hjump hlabel' rfl (ih _ _)
    · exact hlabel
    · exact hlabel'
  | case6 current stm rest hlabel hjump ih =>
    rw [cutFrom_of_not_isJump current rest hlabel hjump]
    exact .plain hlabel (Bool.not_eq_true _ ▸ hjump) (ih s)

namespace Cuts

variable {current : List Stm} {s t : Session} {blocks : List Block}

/-- Blocks begin with what the block under construction begins with, or else the body. -/
theorem head?_stms (h : Cuts current stms s blocks t) :
    blocks.head?.bind (fun b => b.stms.head?) = (current ++ stms).head? := by
  induction h with
  | nil => rfl
  | last => rw [append_nil]; rfl
  | start _ ih => exact ih
  | @label current _ _ _ _ _ hne =>
    cases current with
    | nil => exact absurd rfl hne
    | cons => rfl
  | exit | before | between => simp
  | plain _ _ _ ih => rw [ih, append_assoc]; rfl

theorem entry?_eq (h : Cuts current stms s blocks t)
    (hl : (current ++ stms).head? = some (.label l)) : blocks.head?.bind entry? = some l := by
  obtain ⟨b, hb, hstm⟩ := Option.bind_eq_some_iff.mp (h.head?_stms.trans hl)
  rw [hb]
  exact congrArg (·.bind Stm.placed?) hstm

end Cuts

/-- Of a final jump only one to the block that follows is taken out. -/
theorem join_cons_jump (stms : List Stm) (l : Label) (blocks : List Block) :
    join (⟨stms ++ [.jump l]⟩ :: blocks) =
      (if blocks.head?.bind entry? = some l then stms else stms ++ [.jump l]) ++ join blocks := by
  have hlast : (stms ++ [Stm.jump l]).getLast? = some (.jump l) := List.getLast?_concat
  rw [join]
  unfold withoutFallthrough
  cases blocks.head?.bind entry? with
  | none => simp
  | some next => simp [hlast, eq_comm]

theorem join_singleton (b : Block) : join [b] = b.stms := by
  unfold join withoutFallthrough
  simp [join]

/-- A jump or a branch before a block stays unless it is a hop. What joins it
to the block does not stay. -/
theorem join_cons_bridge {stm : Stm} (hjump : stm.isJump = true) (current rest : List Stm)
    {blocks : List Block} (hentry : blocks.head?.bind entry? = some l) :
    join (⟨current ++ stm :: bridge stm l⟩ :: blocks) =
      current ++ (if isHop stm (.label l :: rest) then [] else [stm]) ++ join blocks := by
  cases stm with
  | jump l' =>
    refine (join_cons_jump current l' blocks).trans ?_
    by_cases heq : l = l'
    · simp [hentry, heq, isHop]
    · simp [hentry, heq, isHop, eq_comm]
  | cjump rel x y target =>
    have hbridge : current ++ .cjump rel x y target :: bridge (.cjump rel x y target) l =
        (current ++ [.cjump rel x y target]) ++ [.jump l] := by
      rw [append_assoc]
      rfl
    rw [hbridge, join_cons_jump, if_pos hentry]
    rfl
  | move | exp | label | seq => cases hjump

/-- **The layout of a cut body**, as far as labels go that the session knows:
the body without its hops. -/
theorem Cuts.filter_join {current : List Stm} {s t : Session} {blocks : List Block}
    (h : Cuts current stms s blocks t) {used : List Label} (hused : ∀ l ∈ used, l ∈ s.labels)
    (htargets : ∀ stm ∈ stms, ∀ l, stm.target? = some l → l ∈ s.labels) :
    (join blocks).filter (staysFor used) = (current ++ withoutHops stms).filter (staysFor used) := by
  induction h with
  | nil => rfl
  | last => rw [join_singleton, withoutHops, append_nil]
  | start _ ih =>
    rw [forall_mem_cons] at htargets
    exact ih hused htargets.2
  | label _ hothers ih =>
    rw [forall_mem_cons] at htargets
    rw [join_cons_jump, if_pos (hothers.entry?_eq rfl), filter_append, ih hused htargets.2,
      ← filter_append]
    rfl
  | @exit _ stm =>
    rw [join_singleton]
    cases stm <;> rfl
  | @before current rest stm l s t blocks hjump hothers ih =>
    rw [forall_mem_cons] at htargets
    rw [join_cons_bridge hjump current rest (hothers.entry?_eq rfl), filter_append,
      ih hused htargets.2, ← filter_append]
    conv_rhs => rw [withoutHops]
    split <;> simp
  | @between current rest stm stm' fresh s u t blocks hjump hnext hfresh hothers ih =>
    -- the statement after a jump gets a fresh label, which nothing uses
    rw [forall_mem_cons] at htargets
    obtain ⟨fresh', u', hrun, hnew, hlabels, -⟩ := Session.run_freshLabel s
    obtain ⟨rfl, rfl⟩ := Prod.mk.inj (hfresh.symm.trans hrun)
    have hknown : ∀ l ∈ s.labels, l ∈ u.labels := fun l hl => by
      rw [hlabels]
      exact mem_append_left _ hl
    have hstm : ¬ isHop stm [.label fresh] = true := fun hhop => by
      obtain ⟨l, _, rfl, heq⟩ := isHop_iff.mp hhop
      obtain rfl := Stm.label.inj (List.cons.inj heq).1
      exact hnew (htargets.1 fresh rfl)
    have hhop : ¬ isHop stm (stm' :: rest) = true := fun hhop => by
      obtain ⟨l, _, rfl, heq⟩ := isHop_iff.mp hhop
      exact hnext l (List.cons.inj heq).1
    have hfresh' : staysFor used (.label fresh) = false :=
      decide_eq_false fun hmem => hnew (hused fresh hmem)
    rw [join_cons_bridge hjump current [] (hothers.entry?_eq rfl), if_neg hstm, filter_append,
      ih (fun l hl => hknown l (hused l hl))
        (fun stm hstm l hl => hknown l (htargets.2 stm hstm l hl)),
      singleton_append, filter_cons, hfresh', if_neg Bool.false_ne_true,
      ← filter_append, append_assoc]
    conv_rhs => rw [withoutHops, if_neg hhop]
    rfl
  | @plain current rest stm s t blocks hlabel hjump _ ih =>
    have hhop : isHop stm rest = false := by
      cases stm with
      | jump => cases hjump
      | move | exp | label | cjump | seq => rfl
    rw [forall_mem_cons] at htargets
    rw [ih hused htargets.2, withoutHops, hhop, append_assoc]
    rfl

/-- The labels that are jumped to in a body without its hops. -/
def usedLabels (stms : List Stm) : List Label := (withoutHops stms).filterMap Stm.target?

/-- A body **tidied up**: without hops, and without labels that nothing jumps
to. -/
def tidied (stms : List Stm) : List Stm := dropUnusedLabels (withoutHops stms)

theorem tidied_sublist (stms : List Stm) : (tidied stms).Sublist stms :=
  filter_sublist.trans (withoutHops_sublist stms)

theorem filterMap_target?_tidied (stms : List Stm) :
    (tidied stms).filterMap Stm.target? = usedLabels stms :=
  filterMap_target?_filter_staysFor _ _

/-- **Blocks laid out again** are the body tidied up, if the session knows the
labels that are jumped to. -/
theorem layout_cut {s : Session} (h : ∀ stm ∈ stms, ∀ l, stm.target? = some l → l ∈ s.labels) :
    layout ((cut stms).run s).1 = tidied stms := by
  have hused : ∀ l ∈ usedLabels stms, l ∈ s.labels := by
    intro l hl
    obtain ⟨stm, hstm, hl⟩ := mem_filterMap.mp hl
    exact h stm ((withoutHops_sublist stms).subset hstm) l hl
  have hjoin := (cuts_cutFrom [] stms s).filter_join hused h
  have htargets : (join ((cut stms).run s).1).filterMap Stm.target? = usedLabels stms := by
    rw [← filterMap_target?_filter_staysFor (usedLabels stms)]
    exact (congrArg _ hjoin).trans (filterMap_target?_filter_staysFor _ _)
  rw [layout, dropUnusedLabels_eq, htargets]
  exact hjoin

end Block

end TreeBackend
