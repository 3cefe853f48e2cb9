import TreeBackend.Proofs.CanonicalForms
import Mathlib.Data.Set.Basic

/-!
# What canonical forms reach

A tree mentions temps, assigns some of them, and jumps to labels. The frame pointer
is a temp like any other, except that a tree has one special use for it: added to a
constant it is the address of a word of the frame. A `Reach` says what a tree may do
of all this, and it tells the two uses of the frame pointer apart: some words may be
addressed even where the frame pointer itself is out of reach.

Canonicalization moves expressions about and draws holders, but it never takes the
address of a word apart, it jumps where the tree jumps, and it assigns what the tree
assigns, or else a holder. So a canonical form stays within the reach of its tree
(`Stm.canonicalize_within`).
-/

namespace TreeBackend

open List Staged

variable {d : Int64} {e : Exp} {q : Staged} {a b : Session} {k : Nat}

/-! ## Trees within reach -/

/-- The address of a word of the frame. -/
abbrev Exp.frameWord (offset : Int64) : Exp := .plus (.temp .framePointer) (.const offset)

/-- What a tree may do. -/
structure Reach where
  /-- The temps that may be mentioned, for whatever purpose. -/
  temps : Set Temp
  /-- The words of the frame that may be addressed, by their offset. -/
  words : Set Int64
  /-- The temps that may be assigned. -/
  assigned : Set Temp
  /-- The labels that may be jumped to. -/
  targets : Set Label
  /-- Whether values may be moved into temps and words only. -/
  places : Prop

/-- A value may be moved to the destination. -/
def Reach.Admits (r : Reach) (dst : Exp) : Prop :=
  (∀ t ∈ dst.assigned?, t ∈ r.assigned) ∧ (r.places → dst.isPlace = true)

/-- A temp that may be assigned is a place. -/
theorem Reach.admits_temp {r : Reach} {t : Temp} (h : t ∈ r.assigned) : r.Admits (.temp t) :=
  ⟨fun _ ht => Option.some.inj ht ▸ h, fun _ => rfl⟩

/-- Any word of memory is one. -/
theorem Reach.admits_mem (r : Reach) (address : Exp) : r.Admits (.mem address) :=
  ⟨nofun, fun _ => rfl⟩

mutual

/-- The expression stays **within reach**: it mentions temps that are, and in the
address of a word that is also the frame pointer. -/
def Exp.Within (r : Reach) : Exp → Prop
  | .const _ | .name _ => True
  | .temp t => t ∈ r.temps
  | .binop op left right =>
    (∃ d ∈ r.words, .binop op left right = Exp.frameWord d) ∨ left.Within r ∧ right.Within r
  | .not e | .mem e => e.Within r
  | .call f args => f.Within r ∧ Exp.AllWithin r args
  | .eseq s e => s.Within r ∧ e.Within r

/-- All of the expressions stay within reach. -/
def Exp.AllWithin (r : Reach) : List Exp → Prop
  | [] => True
  | e :: es => e.Within r ∧ Exp.AllWithin r es

/-- The statement stays **within reach**: so do its expressions, the destinations of
its moves and the labels it jumps to. -/
def Stm.Within (r : Reach) : Stm → Prop
  | .move dst src => r.Admits dst ∧ dst.Within r ∧ src.Within r
  | .exp e => e.Within r
  | .jump l => l ∈ r.targets
  | .label _ => True
  | .cjump _ left right l => l ∈ r.targets ∧ left.Within r ∧ right.Within r
  | .seq a b => a.Within r ∧ b.Within r

end

theorem Exp.allWithin_iff {r : Reach} {es : List Exp} :
    Exp.AllWithin r es ↔ ∀ e ∈ es, e.Within r := by
  induction es with
  | nil => simp [Exp.AllWithin]
  | cons e es ih => rw [Exp.AllWithin, ih, forall_mem_cons]

/-- An operator whose operands stay within reach does so. -/
theorem Exp.within_binop {r : Reach} {op : BinOp} {left right : Exp} (hl : left.Within r)
    (hr : right.Within r) : (Exp.binop op left right).Within r :=
  .inr ⟨hl, hr⟩

/-- A word may be addressed though the frame pointer may not be used. -/
theorem Exp.within_frameWord {r : Reach} (h : d ∈ r.words) : (frameWord d).Within r :=
  .inl ⟨d, h, rfl⟩

namespace Stm

variable {r : Reach} {s : Stm}

/-- A sequence stays within reach if its statements do. -/
theorem within_seqAll {stms : List Stm} (h : ∀ stm ∈ stms, stm.Within r) : (seqAll stms).Within r :=
  seqAll_of_forall (P := Within r) trivial (fun _ _ ha hb => ⟨ha, hb⟩) h

/-- The plain statements of a statement stay within its reach. -/
theorem within_of_mem_linear {c stm : Stm} (h : c.Within r) (hstm : stm ∈ c.linear) :
    stm.Within r := by
  cases c with
  | seq a b =>
    rw [linear_seq, mem_append] at hstm
    exact hstm.elim (within_of_mem_linear h.1) (within_of_mem_linear h.2)
  | move | exp | jump | cjump | label =>
    obtain rfl := mem_singleton.mp (mem_of_mem_filter hstm)
    exact h

/-- A statement within reach goes to a label within reach. -/
theorem Within.target (h : s.Within r) {l : Label} (hl : s.target? = some l) : l ∈ r.targets := by
  cases s with
  | jump =>
    obtain rfl := Option.some.inj hl
    exact h
  | cjump =>
    obtain rfl := Option.some.inj hl
    exact h.1
  | move | exp | label | seq => cases hl

end Stm

/-! ## Wider reach -/

/-- One reach is **part of** another. A word may still be addressed where the frame
pointer may be mentioned. -/
structure Reach.PartOf (r r' : Reach) : Prop where
  temps : r.temps ⊆ r'.temps
  words : ∀ d ∈ r.words, d ∈ r'.words ∨ .framePointer ∈ r'.temps
  assigned : r.assigned ⊆ r'.assigned
  targets : r.targets ⊆ r'.targets
  places : r'.places → r.places

section Wider

variable {r r' : Reach}

mutual

/-- What stays within reach does so within any wider reach. -/
theorem Exp.Within.mono {e : Exp} (h : e.Within r) (hr : r.PartOf r') : e.Within r' := by
  cases e with
  | const | name => trivial
  | temp t => exact hr.temps h
  | binop op left right =>
    obtain ⟨d, hd, heq⟩ | ⟨hl, hr'⟩ := h
    · rw [heq]
      obtain hword | hfp := hr.words d hd
      · exact Exp.within_frameWord hword
      · exact Exp.within_binop hfp trivial
    · exact Exp.within_binop (hl.mono hr) (hr'.mono hr)
  | not e | mem e => exact Exp.Within.mono (e := e) h hr
  | call f args => exact ⟨h.1.mono hr, Exp.AllWithin.mono h.2 hr⟩
  | eseq s e => exact ⟨h.1.mono hr, h.2.mono hr⟩

theorem Exp.AllWithin.mono {es : List Exp} (h : Exp.AllWithin r es) (hr : r.PartOf r') :
    Exp.AllWithin r' es := by
  cases es with
  | nil => trivial
  | cons e es => exact ⟨h.1.mono hr, Exp.AllWithin.mono h.2 hr⟩

theorem Stm.Within.mono {s : Stm} (h : s.Within r) (hr : r.PartOf r') : s.Within r' := by
  cases s with
  | move dst src =>
    obtain ⟨⟨hassigned, hplace⟩, hdst, hsrc⟩ := h
    exact ⟨⟨fun t ht => hr.assigned (hassigned t ht), fun hr' => hplace (hr.places hr')⟩,
      hdst.mono hr, hsrc.mono hr⟩
  | exp e => exact Exp.Within.mono (e := e) h hr
  | jump l => exact hr.targets h
  | label => trivial
  | cjump _ left right l => exact ⟨hr.targets h.1, h.2.1.mono hr, h.2.2.mono hr⟩
  | seq a b => exact ⟨h.1.mono hr, h.2.mono hr⟩

end

end Wider

/-! ## Node by node -/

/-- Where control may be sent by the node. -/
def Node.target? : Node → Option Label
  | .stm s => s.target?
  | .exp _ => none

/-- The node by itself stays **within reach**. -/
def Node.Within (r : Reach) : Node → Prop
  | .exp (.temp t) => t ∈ r.temps
  | .stm (.move dst _) => r.Admits dst
  | .stm (.jump l) => l ∈ r.targets
  | .stm (.cjump _ _ _ l) => l ∈ r.targets
  | _ => True

section Nodes

variable {r : Reach}

mutual

/-- An expression that addresses no word stays within reach if its nodes do. -/
theorem Exp.within_iff (hr : r.words = ∅) (e : Exp) : e.Within r ↔ ∀ n ∈ e.nodes, n.Within r := by
  cases e with
  | const | name => exact iff_of_true trivial (forall_mem_singleton.mpr trivial)
  | temp t =>
    rw [Exp.nodes, forall_mem_singleton]
    rfl
  | binop op left right =>
    rw [Exp.nodes, Node.forall_mem_cons_of trivial, forall_mem_append, ← left.within_iff hr,
      ← right.within_iff hr]
    refine ⟨fun h => h.resolve_left ?_, .inr⟩
    rintro ⟨_, hd, -⟩
    rw [hr] at hd
    exact hd
  | not e | mem e =>
    rw [Exp.nodes, Node.forall_mem_cons_of trivial, ← e.within_iff hr]
    rfl
  | call f args =>
    rw [Exp.nodes, Node.forall_mem_cons_of trivial, forall_mem_append, ← f.within_iff hr,
      ← Exp.allWithin_iff_nodes hr args]
    rfl
  | eseq s e =>
    rw [Exp.nodes, Node.forall_mem_cons_of trivial, forall_mem_append, ← s.within_iff hr,
      ← e.within_iff hr]
    rfl

theorem Exp.allWithin_iff_nodes (hr : r.words = ∅) (es : List Exp) :
    Exp.AllWithin r es ↔ ∀ n ∈ Exp.nodesAll es, n.Within r := by
  cases es with
  | nil => exact iff_of_true trivial (forall_mem_nil _)
  | cons e es =>
    rw [Exp.nodesAll, forall_mem_append, ← e.within_iff hr, ← Exp.allWithin_iff_nodes hr es]
    rfl

/-- A statement that addresses no word stays within reach if its nodes do. -/
theorem Stm.within_iff (hr : r.words = ∅) (s : Stm) : s.Within r ↔ ∀ n ∈ s.nodes, n.Within r := by
  cases s with
  | exp e =>
    rw [Stm.nodes, Node.forall_mem_cons_of trivial, ← e.within_iff hr]
    rfl
  | jump l =>
    rw [Stm.nodes, forall_mem_singleton]
    rfl
  | label => exact iff_of_true trivial (forall_mem_singleton.mpr trivial)
  | move a b | cjump _ a b =>
    rw [Stm.nodes, forall_mem_cons, forall_mem_append, ← a.within_iff hr, ← b.within_iff hr]
    rfl
  | seq a b =>
    rw [Stm.nodes, Node.forall_mem_cons_of trivial, forall_mem_append, ← a.within_iff hr,
      ← b.within_iff hr]
    rfl

end

end Nodes

/-- Every tree stays within a reach where nothing but the targets of jumps is limited, to
those of its own. -/
theorem Stm.within_own (s : Stm) :
    s.Within ⟨.univ, ∅, .univ, {l | ∃ n ∈ s.nodes, n.target? = some l}, False⟩ := by
  refine (Stm.within_iff rfl s).mpr fun n hn => ?_
  unfold Node.Within
  split
  · trivial
  · exact ⟨fun _ _ => trivial, False.elim⟩
  · exact ⟨_, hn, rfl⟩
  · exact ⟨_, hn, rfl⟩
  · trivial

/-! ## Canonical forms -/

/-- The reach **grants** the holders that stages draw while the next temp is at most
number `k`. -/
def Reach.Grants (r : Reach) (k : Nat) : Prop :=
  ∀ n < k, ⟨n, .holder⟩ ∈ r.temps ∧ ⟨n, .holder⟩ ∈ r.assigned

namespace Staged

/-- Both parts stay within reach. -/
structure Within (r : Reach) (p : Staged) : Prop where
  effects : ∀ stm ∈ p.effects, stm.Within r
  value : p.value.Within r

variable {r : Reach} {p : Staged}

/-- A value by itself runs no statements. -/
theorem Within.ofValue (h : e.Within r) : (Staged.ofValue e).Within r :=
  ⟨by simp [Staged.ofValue], h⟩

theorem Within.mapValue (h : p.Within r) {f : Exp → Exp} (hf : (f p.value).Within r) :
    (p.mapValue f).Within r :=
  ⟨h.effects, hf⟩

/-- A value that is held is moved into a holder. -/
theorem Within.held (h : p.Within r) (hr : r.Grants k) {n : Nat} (hn : n < k) :
    (p.held n).Within r := by
  refine ⟨?_, (hr n hn).1⟩
  show ∀ stm ∈ p.effects ++ [.move (.temp ⟨n, .holder⟩) p.value], _
  rw [forall_mem_append, forall_mem_singleton]
  exact ⟨h.effects, Reach.admits_temp (hr n hn).2, (hr n hn).1, h.value⟩

/-- A call is held in a holder, other values are kept. -/
theorem Within.holdCall (h : p.Within r) (hr : r.Grants k) (hq : p.holdCall.run a = (q, b))
    (hk : b.tempCount ≤ k) : q.Within r := by
  obtain ⟨-, rfl, hcount⟩ | ⟨-, rfl, rfl⟩ := holdCall_cases hq
  · exact h.held hr (by omega)
  · exact h

/-- A value that is protected is held or left as it is. -/
theorem Within.protect (h : p.Within r) {later : Bool} (hr : r.Grants k)
    (hq : (p.protect later).run a = (q, b)) (hk : b.tempCount ≤ k) : q.Within r := by
  obtain ⟨rfl, hcount⟩ | ⟨-, rfl, rfl⟩ := protect_cases hq
  · exact h.held hr (by omega)
  · exact h

/-- The effects of two operands, the left one protected from the right one. -/
theorem Within.pair {q₁ q₂ : Staged} (h₁ : q₁.Within r) (h₂ : q₂.Within r) (hr : r.Grants k)
    (hq : (q₁.protect q₂.hasEffects).run a = (q, b)) (hk : b.tempCount ≤ k) :
    (∀ stm ∈ q.effects ++ q₂.effects, stm.Within r) ∧ q.value.Within r :=
  ⟨forall_mem_append.mpr ⟨(h₁.protect hr hq hk).effects, h₂.effects⟩, (h₁.protect hr hq hk).value⟩

end Staged

/-- Staging leaves the address of a word as it is. -/
theorem Exp.stage_frameWord {p : Staged} (h : Yields (frameWord d).stage a p b) :
    p = .ofValue (frameWord d) := by
  obtain ⟨q₁, u, q₂, v, q, hl, hr, hq, rfl⟩ := Exp.yields_stage_binop.mp h
  obtain ⟨rfl, rfl⟩ := Prod.mk.inj hl |>.imp_left Except.ok.inj
  obtain ⟨rfl, rfl⟩ := Prod.mk.inj hr |>.imp_left Except.ok.inj
  obtain ⟨rfl, rfl⟩ := Prod.mk.inj hq
  rfl

section Canonical

variable {r : Reach} (hr : r.Grants k)

include hr

/-- A value stays within reach also when a call is held. -/
theorem Exp.within_of
    (hstage : ∀ {a b : Session} {p : Staged}, Yields e.stage a p b → b.tempCount ≤ k → p.Within r)
    (h : Yields e.stagePure a q b) (hk : b.tempCount ≤ k) : q.Within r := by
  obtain ⟨p, u, hp, hq⟩ := yields_stagePure.mp h
  exact (hstage hp ((le_of_holdCall hq).trans hk)).holdCall hr hq hk

mutual

/-- **Both parts of a staged expression stay within its reach.** -/
theorem Exp.stage_within (e : Exp) (he : e.Within r) {a b : Session} {p : Staged}
    (h : Yields e.stage a p b) (hk : b.tempCount ≤ k) : p.Within r := by
  cases e with
  | const | name | temp =>
    obtain ⟨rfl, rfl⟩ := yields_pure.mp h
    exact .ofValue he
  | binop op left right =>
    obtain ⟨d, hd, heq⟩ | ⟨hleft, hright⟩ := he
    · rw [heq] at h
      rw [Exp.stage_frameWord h]
      exact .ofValue (Exp.within_frameWord hd)
    · obtain ⟨q₁, u, q₂, v, q, hl, hr', hq, rfl⟩ := Exp.yields_stage_binop.mp h
      have hv := (le_of_protect hq).trans hk
      have hu := (Exp.le_of_stagePure hr').trans hv
      have h₁ := Exp.within_of hr (fun h => left.stage_within hleft h) hl hu
      have h₂ := Exp.within_of hr (fun h => right.stage_within hright h) hr' hv
      obtain ⟨heffects, hvalue⟩ := h₁.pair h₂ hr hq hk
      exact ⟨heffects, Exp.within_binop hvalue h₂.value⟩
  | not e =>
    obtain ⟨q, hq, rfl⟩ := Exp.yields_stage_not.mp h
    have hwithin := Exp.within_of hr (fun h => e.stage_within he h) hq hk
    exact hwithin.mapValue hwithin.value
  | mem address =>
    obtain ⟨q, hq, rfl⟩ := Exp.yields_stage_mem.mp h
    have hwithin := Exp.within_of hr (fun h => address.stage_within he h) hq hk
    exact hwithin.mapValue hwithin.value
  | call f args =>
    obtain ⟨q₁, u, ps, v, q, qs, hf, hargs, hqs, rfl⟩ := Exp.yields_stage_call.mp h
    have hv := (le_of_protectAll hqs).trans hk
    have hu := (Exp.le_of_stageAll hargs).trans hv
    have hall := forall_protectAll (P := Within r) (fun hp hn => hp.held hr (hn.trans_le hk))
      (forall_mem_cons.mpr ⟨Exp.within_of hr (fun h => f.stage_within he.1 h) hf hu,
        Exp.stageAll_within args he.2 hargs hv⟩) hqs
    rw [forall_mem_cons] at hall
    refine ⟨?_, hall.1.value, Exp.allWithin_iff.mpr ?_⟩
    · rw [forall_mem_append, forall_mem_flatMap]
      exact ⟨hall.1.effects, fun q hq => (hall.2 q hq).effects⟩
    · rw [forall_mem_map]
      exact fun q hq => (hall.2 q hq).value
  | eseq stm e =>
    obtain ⟨c, u, q, hc, hq, rfl⟩ := Exp.yields_stage_eseq.mp h
    have hstm := stm.canonicalize_within he.1 hc ((Exp.le_of_stagePure hq).trans hk)
    have hwithin := Exp.within_of hr (fun h => e.stage_within he.2 h) hq hk
    refine ⟨forall_mem_append.mpr ⟨fun s hs => ?_, hwithin.effects⟩, hwithin.value⟩
    split at hs
    · cases hs
    · obtain rfl := mem_singleton.mp hs
      exact hstm

/-- Those of operands stay within the reach of all of them. -/
theorem Exp.stageAll_within (es : List Exp) (hes : Exp.AllWithin r es) {a b : Session}
    {ps : List Staged} (h : Yields (Exp.stageAll es) a ps b) (hk : b.tempCount ≤ k) :
    ∀ p ∈ ps, p.Within r := by
  cases es with
  | nil =>
    obtain ⟨rfl, rfl⟩ := yields_pure.mp h
    simp
  | cons e es =>
    obtain ⟨q, u, qs, hq, hqs, rfl⟩ := Exp.yields_stageAll_cons.mp h
    have hu := (Exp.le_of_stageAll hqs).trans hk
    exact forall_mem_cons.mpr ⟨Exp.within_of hr (fun h => e.stage_within hes.1 h) hq hu,
      Exp.stageAll_within es hes.2 hqs hk⟩

/-- A move stays within the reach of its destination and its source. -/
theorem Exp.moveInto_within (dst : Exp) (hdst : dst.Within r)
    (hassigned : ∀ t ∈ dst.assigned?, t ∈ r.assigned) {src : CompileM Staged}
    (hgrows : Growing id src)
    (hsrc : ∀ {a b : Session} {p : Staged}, Yields src a p b → b.tempCount ≤ k → p.Within r)
    {a b : Session} {c : Stm} (h : Yields (dst.moveInto src) a c b) (hk : b.tempCount ≤ k) :
    c.Within r := by
  cases dst with
  | temp t =>
    simp only [Exp.moveInto, yields_bind, yields_pure] at h
    obtain ⟨p, u, hp, rfl, rfl⟩ := h
    refine Stm.within_seqAll ?_
    rw [forall_mem_append, forall_mem_singleton]
    exact ⟨(hsrc hp hk).effects, ⟨hassigned, fun _ => rfl⟩, hdst, (hsrc hp hk).value⟩
  | mem address =>
    obtain ⟨q₁, u, p₂, v, q₂, v', q, hq₁, hp₂, hq₂, hq, rfl⟩ := Exp.yields_moveInto_mem.mp h
    have hv' := (le_of_protect hq).trans hk
    have hv := (le_of_holdCall hq₂).trans hv'
    have hu : u.tempCount ≤ k := (hgrows.continues hp₂).le.trans hv
    have h₁ := Exp.within_of hr (fun h => address.stage_within hdst h) hq₁ hu
    have h₂ := (hsrc hp₂ hv).holdCall hr hq₂ hv'
    obtain ⟨heffects, hvalue⟩ := h₁.pair h₂ hr hq hk
    refine Stm.within_seqAll ?_
    rw [forall_mem_append, forall_mem_singleton]
    exact ⟨heffects, ⟨nofun, fun _ => rfl⟩, hvalue, h₂.value⟩
  | eseq stm dst =>
    simp only [Exp.moveInto, yields_bind, yields_pure] at h
    obtain ⟨c₁, u, hc₁, c₂, b', hc₂, rfl, rfl⟩ := h
    have hle : u.tempCount ≤ b'.tempCount := ((dst.growing_moveInto hgrows).continues hc₂).le
    refine Stm.within_seqAll ?_
    rw [forall_mem_cons, forall_mem_singleton]
    exact ⟨stm.canonicalize_within hdst.1 hc₁ (hle.trans hk),
      dst.moveInto_within hdst.2 hassigned hgrows hsrc hc₂ hk⟩
  | const | name | binop | not | call => exact absurd h not_yields_throw

/-- **A canonical form stays within the reach of its tree.** -/
theorem Stm.canonicalize_within (stm : Stm) (hstm : stm.Within r) {a b : Session} {c : Stm}
    (h : Yields stm.canonicalize a c b) (hk : b.tempCount ≤ k) : c.Within r := by
  cases stm with
  | move dst src =>
    rw [Stm.canonicalize_move] at h
    exact dst.moveInto_within hstm.2.1 hstm.1.1 src.growing_stage
      (fun h => src.stage_within hstm.2.2 h) h hk
  | exp e =>
    obtain ⟨p, hp, rfl⟩ := Stm.yields_canonicalize_exp.mp h
    have hwithin := e.stage_within hstm hp hk
    refine Stm.within_seqAll (forall_mem_append.mpr ⟨hwithin.effects, fun s hs => ?_⟩)
    split at hs
    · cases hs
    · obtain rfl := mem_singleton.mp hs
      exact hwithin.value
  | jump | label =>
    rw [Stm.canonicalize, yields_pure] at h
    obtain ⟨rfl, rfl⟩ := h
    exact hstm
  | cjump rel left right target =>
    obtain ⟨q₁, u, q₂, v, q, hl, hr', hq, rfl⟩ := Stm.yields_canonicalize_cjump.mp h
    have hv := (le_of_protect hq).trans hk
    have hu := (Exp.le_of_stagePure hr').trans hv
    have h₁ := Exp.within_of hr (fun h => left.stage_within hstm.2.1 h) hl hu
    have h₂ := Exp.within_of hr (fun h => right.stage_within hstm.2.2 h) hr' hv
    obtain ⟨heffects, hvalue⟩ := h₁.pair h₂ hr hq hk
    refine Stm.within_seqAll ?_
    rw [forall_mem_append, forall_mem_singleton]
    exact ⟨heffects, hstm.1, hvalue, h₂.value⟩
  | seq s s' =>
    obtain ⟨c₁, u, c₂, hc₁, hc₂, rfl⟩ := Stm.yields_canonicalize_seq.mp h
    refine Stm.within_seqAll ?_
    rw [forall_mem_cons, forall_mem_singleton]
    exact ⟨s.canonicalize_within hstm.1 hc₁ ((Stm.le_of_canonicalize hc₂).trans hk),
      s'.canonicalize_within hstm.2 hc₂ hk⟩

end

end Canonical

end TreeBackend
