import TreeBackend.Proofs.BlockLayout
import Mathlib.Data.List.Chain

/-!
# The form of blocks

A body is cut before each label and behind each jump and branch. Every **stretch**
between two cuts becomes a block: it is given a fresh label if it is not the first and
does not start with a label of its own, and a jump to the block after it if it is not
the last and does not end in a jump of its own. Nothing else is added, and nothing is
left out or moved (`Block.cut_wellFormed`).

What a block may look like is said by its kinds of statements alone, and comes down to
which kind may come right after which (`Block.MayFollow`).
-/

namespace TreeBackend

open List

variable {l : Label}

/-! ## Labels drawn one after the other -/

/-- The labels were **added** to those of a session: all are new to it, and different from
each other. -/
structure Session.AddsLabels (s t : Session) (labels : List Label) : Prop where
  eq : t.labels = s.labels ++ labels
  nodup : labels.Nodup
  fresh : ∀ l ∈ labels, l ∉ s.labels

namespace Session.AddsLabels

theorem refl (s : Session) : s.AddsLabels s [] := ⟨(append_nil _).symm, nodup_nil, forall_mem_nil _⟩

theorem cons {s u t : Session} {labels : List Label} (hfresh : freshLabel.run s = (l, u))
    (h : u.AddsLabels t labels) : s.AddsLabels t (l :: labels) := by
  obtain ⟨l', u', hrun, hnew, hlabels, -⟩ := run_freshLabel s
  obtain ⟨rfl, rfl⟩ := Prod.mk.inj (hrun.symm.trans hfresh)
  have hothers := h.fresh
  simp only [hlabels, mem_append, mem_singleton, not_or] at hothers
  refine ⟨?_, nodup_cons.mpr ⟨fun hl => (hothers l' hl).2 rfl, h.nodup⟩,
    forall_mem_cons.mpr ⟨hnew, fun l hl => (hothers l hl).1⟩⟩
  rw [h.eq, hlabels, append_assoc]
  rfl

end Session.AddsLabels

namespace Block

/-! ## Well-formed blocks -/

/-- The kinds of a block's statements. -/
def kinds (b : Block) : List Stm.Kind := b.stms.map Stm.kind

/-- A **well-formed** block has statements, of which only the first can be a label, only
the last a jump, and only the last, or the one before a last jump, a branch. -/
structure WellFormed (b : Block) : Prop where
  ne_nil : b.stms ≠ []
  label_first : ∀ i, b.kinds[i]? = some .label → i = 0
  jump_last : ∀ i, b.kinds[i]? = some .jump → i + 1 = b.kinds.length
  branch_last : ∀ i, b.kinds[i]? = some .cjump → i + 1 = b.kinds.length ∨
    i + 2 = b.kinds.length ∧ b.kinds[i + 1]? = some .jump

/-- Whether, in a block, a statement of the second kind **may follow** right after one of
the first: a label may follow nothing, nothing may follow a jump, and only a jump may
follow a branch. -/
def MayFollow (k k' : Stm.Kind) : Prop := k' ≠ .label ∧ k ≠ .jump ∧ (k = .cjump → k' = .jump)

theorem mayFollow_of_isChain {kinds : List Stm.Kind} (h : kinds.IsChain MayFollow) {i : Nat}
    {k k' : Stm.Kind} (hk : kinds[i]? = some k) (hk' : kinds[i + 1]? = some k') :
    MayFollow k k' := by
  obtain ⟨_, rfl⟩ := List.getElem?_eq_some_iff.mp hk
  obtain ⟨hlt, rfl⟩ := List.getElem?_eq_some_iff.mp hk'
  exact isChain_iff_getElem.mp h i hlt

/-- A block is well-formed if each statement may follow the one before it. -/
theorem wellFormed_of_isChain {b : Block} (hne : b.stms ≠ []) (h : b.kinds.IsChain MayFollow) :
    b.WellFormed := by
  have hjump : ∀ i, b.kinds[i]? = some .jump → i + 1 = b.kinds.length := by
    intro i hi
    obtain ⟨hlt, -⟩ := List.getElem?_eq_some_iff.mp hi
    by_contra hnot
    have hnext : i + 1 < b.kinds.length := by omega
    exact (mayFollow_of_isChain h hi (List.getElem?_eq_getElem hnext)).2.1 rfl
  refine ⟨hne, fun i hi => ?_, hjump, fun i hi => ?_⟩
  · cases i with
    | zero => rfl
    | succ i =>
      obtain ⟨hlt, -⟩ := List.getElem?_eq_some_iff.mp hi
      have hbefore := List.getElem?_eq_getElem (Nat.lt_of_succ_lt hlt)
      exact absurd rfl (mayFollow_of_isChain h hbefore hi).1
  · obtain ⟨hlt, -⟩ := List.getElem?_eq_some_iff.mp hi
    by_cases hlast : i + 1 = b.kinds.length
    · exact .inl hlast
    · have hnext := List.getElem?_eq_getElem (show i + 1 < b.kinds.length by omega)
      rw [(mayFollow_of_isChain h hi hnext).2.2 rfl] at hnext
      exact .inr ⟨hjump (i + 1) hnext, hnext⟩

/-- A chain goes on with a statement that may follow its last one. -/
theorem isChain_concat {stms : List Stm} {stm : Stm} (h : (stms.map Stm.kind).IsChain MayFollow)
    (hlast : ∀ last ∈ stms.getLast?, MayFollow last.kind stm.kind) :
    ((stms ++ [stm]).map Stm.kind).IsChain MayFollow := by
  rw [map_append]
  refine h.append (.singleton _) fun k hk k' hk' => ?_
  rw [List.getLast?_map, Option.mem_map] at hk
  obtain ⟨last, hmem, rfl⟩ := hk
  obtain rfl := Option.some.inj hk'
  exact hlast last hmem

/-! ## Stretches -/

/-- A **stretch** of a body, with what its block has besides. -/
structure Stretch where
  /-- The label that was drawn for the block. -/
  drawn? : Option Label
  /-- The statements that are those of the body. -/
  given : List Stm
  /-- Where the jump leads that was added to the block. -/
  added? : Option Label

namespace Stretch

/-- The block that a stretch becomes. -/
def block (p : Stretch) : Block :=
  ⟨p.drawn?.toList.map .label ++ p.given ++ p.added?.toList.map .jump⟩

/-- One stretch **joins** the next: the block of the next one starts with a label, and a
jump to that label is added unless the stretch itself ends in a jump. -/
def Joins (p q : Stretch) : Prop := ∃ l, q.block.entry? = some l ∧
    p.added? = if p.given.getLast?.map Stm.kind = some .jump then none else some l

theorem Joins.head?_kinds {p q : Stretch} (h : p.Joins q) : q.block.kinds.head? = some .label := by
  obtain ⟨l, hentry, -⟩ := h
  obtain ⟨stm, hstm, hplaced⟩ := Option.bind_eq_some_iff.mp hentry
  rw [kinds, List.head?_map, hstm]
  cases stm with
  | label => rfl
  | move | exp | jump | cjump | seq => cases hplaced

theorem Joins.getLast?_kinds {p q : Stretch} (h : p.Joins q) :
    p.block.kinds.getLast? = some .jump := by
  obtain ⟨l, -, hadded⟩ := h
  rw [kinds, List.getLast?_map, block]
  split at hadded
  · next hjump =>
    obtain ⟨last, hlast, hkind⟩ := Option.map_eq_some_iff.mp hjump
    simp [hadded, hlast, hkind]
  · simp [hadded, Stm.kind]

/-- Every block but the first starts with a label, and every block but the last ends in a
jump. -/
theorem forall_mem_of_isChain {stretches : List Stretch} (h : stretches.IsChain Joins) :
    (∀ p ∈ stretches.tail, p.block.kinds.head? = some .label) ∧
      ∀ p ∈ stretches.dropLast, p.block.kinds.getLast? = some .jump := by
  induction stretches with
  | nil => exact ⟨forall_mem_nil _, forall_mem_nil _⟩
  | cons p others ih =>
    cases others with
    | nil => exact ⟨forall_mem_nil _, forall_mem_nil _⟩
    | cons q others =>
      rw [isChain_cons_cons] at h
      obtain ⟨hheads, hlasts⟩ := ih h.2
      exact ⟨forall_mem_cons.mpr ⟨h.1.head?_kinds, hheads⟩,
        forall_mem_cons.mpr ⟨h.1.getLast?_kinds, hlasts⟩⟩

end Stretch

/-- The stretches are a **cutting** of the body, and what was drawn for the first one, if
there is one, is `drawn?`. The session `s` draws the labels of the others, and is `t` then. -/
structure Cutting (drawn? : Option Label) (body : List Stm) (stretches : List Stretch)
    (s t : Session) : Prop where
  wellFormed : ∀ p ∈ stretches, p.block.WellFormed
  joins : stretches.IsChain Stretch.Joins
  first : ∀ p ∈ stretches.head?, p.drawn? = drawn?
  last : ∀ p ∈ stretches.getLast?, p.added? = none
  given : (stretches.map Stretch.given).flatten = body
  draws : s.AddsLabels t (stretches.tail.filterMap Stretch.drawn?)

namespace Cutting

variable {drawn? drawn?' added? : Option Label} {given body : List Stm} {stretches : List Stretch}
  {b : Block} {s u t : Session}

/-- A single stretch. -/
theorem exists_singleton (hblock : Stretch.block ⟨drawn?, given, none⟩ = b) (hb : b.WellFormed)
    (s : Session) : ∃ stretches, [b] = stretches.map Stretch.block ∧
      Cutting drawn? given stretches s s := by
  subst hblock
  refine ⟨[⟨drawn?, given, none⟩], rfl, forall_mem_singleton.mpr hb, .singleton _, ?_, ?_,
    by simp, .refl s⟩
  · rintro _ ⟨⟩
    rfl
  · rintro _ ⟨⟩
    rfl

/-- A stretch is put in front of those after it. -/
theorem exists_cons (h : Cutting drawn?' body stretches u t)
    (hblock : Stretch.block ⟨drawn?, given, added?⟩ = b) (hb : b.WellFormed)
    (hentry : (stretches.map Stretch.block).head?.bind entry? = some l)
    (hadded : added? = if given.getLast?.map Stm.kind = some .jump then none else some l)
    (hdraws : ∀ {labels}, u.AddsLabels t labels → s.AddsLabels t (drawn?'.toList ++ labels)) :
    ∃ stretches', b :: stretches.map Stretch.block = stretches'.map Stretch.block ∧
      Cutting drawn? (given ++ body) stretches' s t := by
  subst hblock
  cases stretches with
  | nil => cases hentry
  | cons q others =>
    refine ⟨⟨drawn?, given, added?⟩ :: q :: others, rfl, forall_mem_cons.mpr ⟨hb, h.wellFormed⟩,
      h.joins.cons_cons ⟨l, hentry, hadded⟩, ?_, h.last, congrArg (given ++ ·) h.given, ?_⟩
    · rintro _ ⟨⟩
      rfl
    · have hall := hdraws h.draws
      rw [← h.first q rfl] at hall
      cases hq : q.drawn? with
      | none | some => simpa [hq] using hall

end Cutting

/-! ## Cutting a body -/

/-- What the block **under construction** holds: the label drawn for it, if any, and
statements of the body, none of which ends a block. -/
structure Opened (drawn? : Option Label) (given current : List Stm) : Prop where
  eq : current = drawn?.toList.map Stm.label ++ given
  plain : ∀ stm ∈ current, stm.isJump = false
  chain : (current.map Stm.kind).IsChain MayFollow

namespace Opened

variable {drawn? : Option Label} {given current : List Stm} {stm : Stm}

/-- A block is begun with a label. -/
theorem label (drawn? : Option Label) (given : List Stm)
    (heq : [.label l] = drawn?.toList.map Stm.label ++ given) : Opened drawn? given [.label l] :=
  ⟨heq, forall_mem_singleton.mpr rfl, .singleton _⟩

/-- A block is begun with nothing. -/
protected theorem nil : Opened none [] [] := ⟨rfl, forall_mem_nil _, .nil⟩

/-- Any statement but a label may come next. -/
theorem isChain_concat (h : Opened drawn? given current) (hstm : stm.kind ≠ .label) :
    ((current ++ [stm]).map Stm.kind).IsChain MayFollow := by
  refine Block.isChain_concat h.chain fun last hlast => ⟨hstm, ?_⟩
  have hplain := h.plain last (mem_of_getLast? hlast)
  cases last with
  | jump | cjump => cases hplain
  | move | exp | label | seq => exact ⟨Stm.Kind.noConfusion, Stm.Kind.noConfusion⟩

theorem wellFormed_concat (h : Opened drawn? given current) (hstm : stm.kind ≠ .label) :
    WellFormed ⟨current ++ [stm]⟩ :=
  wellFormed_of_isChain (by simp) (h.isChain_concat hstm)

theorem concat (h : Opened drawn? given current) (hlabel : stm.kind ≠ .label)
    (hjump : stm.isJump = false) : Opened drawn? (given ++ [stm]) (current ++ [stm]) where
  eq := by rw [h.eq, append_assoc]
  plain := forall_mem_append.mpr ⟨h.plain, forall_mem_singleton.mpr hjump⟩
  chain := h.isChain_concat hlabel

theorem getLast?_kind_ne_jump (h : Opened drawn? given current) :
    given.getLast?.map Stm.kind ≠ some .jump := by
  intro hlast
  obtain ⟨last, hmem, hkind⟩ := Option.map_eq_some_iff.mp hlast
  have hplain := h.plain last (h.eq ▸ mem_append_right _ (mem_of_getLast? hmem))
  cases last with
  | jump | cjump => cases hplain
  | move | exp | label | seq => cases hkind

/-- A jump or a branch ends the block, with a jump to the next block behind a branch. -/
theorem exists_bridge (h : Opened drawn? given current) (hjump : stm.isJump = true) (l : Label) :
    ∃ added?, Stretch.block ⟨drawn?, given ++ [stm], added?⟩ = ⟨current ++ stm :: bridge stm l⟩ ∧
      WellFormed ⟨current ++ stm :: bridge stm l⟩ ∧
      added? = if (given ++ [stm]).getLast?.map Stm.kind = some .jump then none else some l := by
  rw [List.getLast?_concat]
  cases stm with
  | jump l' =>
    exact ⟨none, by simp [Stretch.block, h.eq, bridge], h.wellFormed_concat Stm.Kind.noConfusion,
      rfl⟩
  | cjump rel x y target =>
    refine ⟨some l, by simp [Stretch.block, h.eq, bridge], ?_, rfl⟩
    rw [append_cons]
    refine wellFormed_of_isChain (by simp) (Block.isChain_concat
      (h.isChain_concat Stm.Kind.noConfusion) fun last hlast => ?_)
    rw [List.getLast?_concat] at hlast
    obtain rfl := Option.some.inj hlast
    exact ⟨Stm.Kind.noConfusion, Stm.Kind.noConfusion, fun _ => rfl⟩
  | move | exp | label | seq => cases hjump

end Opened

/-- **The blocks of a cutting** come out, from any point on: a cutting of what the block
under construction has of the body and of what is left of the body. -/
theorem Cuts.exists_cutting {current stms : List Stm} {s t : Session} {blocks : List Block}
    (hcuts : Cuts current stms s blocks t) {drawn? : Option Label} {given : List Stm}
    (h : Opened drawn? given current) :
    ∃ stretches, blocks = stretches.map Stretch.block ∧
      Cutting drawn? (given ++ stms) stretches s t := by
  induction hcuts generalizing drawn? given with
  | nil s =>
    obtain rfl : given = [] := (append_eq_nil_iff.mp h.eq.symm).2
    refine ⟨[], rfl, forall_mem_nil _, .nil, ?_, ?_, rfl, .refl s⟩
    · rintro _ ⟨⟩
    · rintro _ ⟨⟩
  | last s hne =>
    exact Cutting.exists_singleton (by simp [Stretch.block, h.eq])
      (wellFormed_of_isChain hne h.chain) s
  | start _ ih =>
    obtain ⟨hnone, rfl⟩ := append_eq_nil_iff.mp h.eq.symm
    obtain rfl : drawn? = none := by simpa using hnone
    exact ih (.label none [.label _] rfl)
  | @label _ _ l _ _ _ _ hothers ih =>
    obtain ⟨stretches, rfl, hcutting⟩ := ih (.label none [.label l] rfl)
    exact hcutting.exists_cons (by simp [Stretch.block, h.eq])
      (h.wellFormed_concat Stm.Kind.noConfusion) (hothers.entry?_eq rfl)
      (if_neg h.getLast?_kind_ne_jump).symm id
  | @exit _ stm s hjump =>
    refine Cutting.exists_singleton (by simp [Stretch.block, h.eq]) (h.wellFormed_concat ?_) s
    cases stm with
    | jump | cjump => exact Stm.Kind.noConfusion
    | move | exp | label | seq => cases hjump
  | before hjump hothers ih =>
    obtain ⟨stretches, rfl, hcutting⟩ := ih .nil
    obtain ⟨added?, hblock, hwellFormed, hadded⟩ := h.exists_bridge hjump _
    rw [append_cons given]
    exact hcutting.exists_cons hblock hwellFormed (hothers.entry?_eq rfl) hadded id
  | @between _ _ _ _ l _ _ _ _ hjump _ hfresh hothers ih =>
    obtain ⟨stretches, rfl, hcutting⟩ := ih (.label (some l) [] rfl)
    obtain ⟨added?, hblock, hwellFormed, hadded⟩ := h.exists_bridge hjump l
    rw [append_cons given]
    exact hcutting.exists_cons hblock hwellFormed (hothers.entry?_eq rfl) hadded (.cons hfresh)
  | @plain _ _ stm _ _ _ hlabel hjump _ ih =>
    rw [append_cons given]
    refine ih (h.concat ?_ hjump)
    cases stm with
    | label l => exact absurd rfl (hlabel l)
    | move | exp | jump | cjump | seq => exact Stm.Kind.noConfusion

/-- **The form of blocks.** Whatever the body and the session, the body is cut into blocks
that are well-formed; all but the first start with a label, and all but the last end in a
jump. They are the blocks of stretches that make up the body, one after the other.

What they have besides is only this. The labels that were added are those that were drawn,
in that order, each new to the session and none drawn twice, and the first block was given
none. Of all blocks but the last, those were given a jump whose stretch does not end in
one, and it leads to the label that the next block starts with. -/
theorem cut_wellFormed (stms : List Stm) (s : Session) :
    ∃ blocks s', (cut stms).run s = (blocks, s') ∧ (∀ b ∈ blocks, b.WellFormed) ∧
      (∀ b ∈ blocks.tail, b.kinds.head? = some .label) ∧
      (∀ b ∈ blocks.dropLast, b.kinds.getLast? = some .jump) ∧
      ∃ stretches : List Stretch, blocks = stretches.map Stretch.block ∧
        (stretches.map Stretch.given).flatten = stms ∧
        s.AddsLabels s' (stretches.filterMap Stretch.drawn?) ∧
        (∀ p ∈ stretches.head?, p.drawn? = none) ∧ stretches.IsChain Stretch.Joins ∧
        ∀ p ∈ stretches.getLast?, p.added? = none := by
  obtain ⟨stretches, hblocks, hcutting⟩ := (cuts_cutFrom [] stms s).exists_cutting .nil
  obtain ⟨hheads, hlasts⟩ := Stretch.forall_mem_of_isChain hcutting.joins
  have hdrawn : stretches.tail.filterMap Stretch.drawn? = stretches.filterMap Stretch.drawn? := by
    cases stretches with
    | nil => rfl
    | cons p others => exact (filterMap_cons_none (hcutting.first p rfl)).symm
  refine ⟨stretches.map Stretch.block, _, Prod.ext hblocks rfl, ?_, ?_, ?_, stretches, rfl,
    hcutting.given, hdrawn ▸ hcutting.draws, hcutting.first, hcutting.joins, hcutting.last⟩
  · exact forall_mem_map.mpr hcutting.wellFormed
  · rwa [← map_tail, forall_mem_map]
  · rwa [← map_dropLast, forall_mem_map]

/-- A branch in the middle of a body is joined to what comes after it by a label. -/
example (a : Exp) : (((cut [.exp a, .label ⟨"top"⟩, .cjump .lt a a ⟨"top"⟩, .exp a]).run {}).1.map
    kinds) = [[.exp, .jump], [.label, .cjump, .jump], [.label, .exp]] := rfl

end Block

end TreeBackend
