import TreeBackend.Proofs.Grammar
import TreeBackend.Proofs.SessionGrowth

/-!
# Trees that were read

What is read from a text is in order, whatever the text says. Names are atoms,
constants fit a word, labels are known to the session, and a temp is the frame
pointer or stands in the table of the method under its own name, in which no
name stands twice. A sequence consists of statements that do something, for
those that only evaluate a constant are left out of it (`Reader.Reads.leads`).
-/

namespace TreeBackend

open List

namespace Text

/-! ## Atoms -/

/-- The text can stand as an **atom**: it is not empty, and nothing in it ends an
atom. -/
def IsAtom (text : String) : Prop := text ≠ "" ∧ ∀ c ∈ text.toList, isDelimiter c = false

instance (text : String) : Decidable (IsAtom text) :=
  @instDecidableAnd _ _ inferInstance (List.decidableBAll _ _)

/-- The tokens are parentheses and atoms. -/
def AllAtoms (tokens : List Token) : Prop :=
  ∀ token ∈ tokens, ∀ text, token.sort = .atom text → IsAtom text

namespace Scan

/-- What the scanner holds of an atom is the beginning of one. -/
def Sound : Scan → Prop
  | gap | comment => True
  | atom _ reversed => reversed ≠ [] ∧ ∀ c ∈ reversed, isDelimiter c = false

theorem Sound.pending {state : Scan} (h : state.Sound) : AllAtoms state.pending := by
  cases state with
  | gap | comment => exact forall_mem_nil _
  | atom start reversed =>
    refine forall_mem_singleton.mpr fun text htext => ?_
    obtain rfl := Token.Sort.atom.inj htext
    refine ⟨fun hempty => h.1 ?_, fun c hc => h.2 c (by simpa using hc)⟩
    simpa using congrArg String.toList hempty

theorem begin_sound (p : Position) (c : Char) : AllAtoms (begin p c).1 ∧ (begin p c).2.Sound := by
  unfold begin
  split
  · exact ⟨forall_mem_nil _, trivial⟩
  · split
    · exact ⟨forall_mem_nil _, trivial⟩
    · split
      · exact ⟨forall_mem_singleton.mpr nofun, trivial⟩
      · split
        · exact ⟨forall_mem_singleton.mpr nofun, trivial⟩
        · refine ⟨forall_mem_nil _, cons_ne_nil _ _, forall_mem_singleton.mpr ?_⟩
          simp_all [isDelimiter]

theorem Sound.step {state : Scan} (h : state.Sound) (p : Position) (c : Char) :
    AllAtoms (state.step p c).1 ∧ (state.step p c).2.Sound := by
  cases state with
  | gap => exact begin_sound p c
  | comment =>
    unfold Scan.step
    dsimp only
    split <;> exact ⟨forall_mem_nil _, trivial⟩
  | atom start reversed =>
    unfold Scan.step
    dsimp only
    split
    · exact ⟨forall_mem_append.mpr ⟨h.pending, (begin_sound p c).1⟩, (begin_sound p c).2⟩
    · next hc =>
      refine ⟨forall_mem_nil _, cons_ne_nil _ _, forall_mem_cons.mpr ⟨?_, h.2⟩⟩
      simpa using hc

theorem Sound.run {state : Scan} (h : state.Sound) (p : Position) (cs : List Char) :
    AllAtoms (state.run p cs) := by
  induction cs generalizing state p with
  | nil => exact h.pending
  | cons c cs ih => exact forall_mem_append.mpr ⟨(h.step p c).1, ih (h.step p c).2 (p.after c)⟩

end Scan

/-- **Every token is a parenthesis or an atom.** -/
theorem allAtoms_tokens (text : String) : AllAtoms (tokens text) :=
  (show Scan.gap.Sound from trivial).run _ _

namespace Reader

/-! ## Readers in order -/

/-- The reader is **in order**: the tokens to come are parentheses and atoms, and in
the table every temp was drawn under its own name, no name stands twice, and `fp`
stands for none. -/
structure InOrder (r : Reader) : Prop where
  atoms : AllAtoms r.rest
  entries : ∀ entry ∈ r.temps, entry.2.kind = .plain entry.1 ∧ entry.2.index < r.session.tempCount ∧
    entry.1 ≠ "fp" ∧ IsAtom entry.1
  nodup : (r.temps.map Prod.fst).Nodup

/-- One reader **leads** to another: the session continues, the table keeps its
entries, and what follows is in order. -/
structure Leads (r r' : Reader) : Prop where
  session : r.session.Continues r'.session
  temps : ∀ entry ∈ r.temps, entry ∈ r'.temps
  inOrder : r'.InOrder

variable {r r' r'' : Reader}

theorem InOrder.leads (hr : r.InOrder) : r.Leads r := ⟨.refl _, fun _ h => h, hr⟩

theorem Leads.trans (h : r.Leads r') (h' : r'.Leads r'') : r.Leads r'' :=
  ⟨h.session.trans h'.session, fun entry he => h'.temps entry (h.temps entry he), h'.inOrder⟩

theorem inOrder_ofText (text : String) (session : Session) : (ofText text session).InOrder :=
  ⟨allAtoms_tokens text, forall_mem_nil _, nodup_nil⟩

/-- A token is taken, and nothing else changes. -/
theorem Takes.leads {sort : Token.Sort} (h : r.Takes sort r') (hr : r.InOrder) : r.Leads r' := by
  obtain ⟨p, rest, hrest, rfl⟩ := h
  have hatoms := hr.atoms
  rw [hrest] at hatoms
  exact ⟨.refl _, fun _ h => h, (forall_mem_cons.mp hatoms).2, hr.entries, hr.nodup⟩

theorem Takes.isAtom {text : String} (h : r.Takes (.atom text) r') (hr : r.InOrder) :
    IsAtom text := by
  obtain ⟨p, rest, hrest, rfl⟩ := h
  exact hr.atoms ⟨.atom text, p⟩ (hrest ▸ mem_cons_self) text rfl

theorem Heads.leads {keyword : String} (h : r.Heads keyword r') (hr : r.InOrder) : r.Leads r' := by
  obtain ⟨u, hopen, hatom⟩ := h
  have hu := hopen.leads hr
  exact hu.trans (hatom.leads hu.inOrder)

/-- A label that the reader has met. -/
def Knows (r : Reader) (l : Label) : Prop := l ∈ r.session.labels ∧ IsAtom l.name

theorem TakesLabel.leads {l : Label} (h : r.TakesLabel l r') (hr : r.InOrder) :
    r.Leads r' ∧ r'.Knows l := by
  obtain ⟨u, hatom, rfl⟩ := h
  have hu := hatom.leads hr
  have hcontinues := Session.Extending.namedLabel l.name u.session
  have hknown : l ∈ ((Session.namedLabel l.name).run u.session).2.labels := by
    rw [Session.run_namedLabel]
    split
    · next hmem => exact hmem
    · rw [Session.labels_withLabel]
      exact mem_append_right _ mem_cons_self
  refine ⟨hu.trans ⟨hcontinues, fun _ h => h, hu.inOrder.atoms, fun entry he => ?_,
    hu.inOrder.nodup⟩, hknown, hatom.isAtom hr⟩
  obtain ⟨hkind, hlt, hrest⟩ := hu.inOrder.entries entry he
  exact ⟨hkind, Nat.lt_of_lt_of_le hlt hcontinues.le, hrest⟩

/-- A temp that the reader has met: the frame pointer, or one from the table. -/
def Holds (r : Reader) (t : Temp) : Prop := t = .framePointer ∨ (t.name, t) ∈ r.temps

/-- A name that is new is drawn and entered. -/
theorem leads_of_temp {name : String} {t : Temp} (h : Yields (temp name) r t r')
    (hname : IsAtom name) (hr : r.InOrder) : r.Leads r' ∧ r'.Holds t := by
  obtain ⟨-, rfl, rfl⟩ | ⟨-, hlookup, rfl⟩ | ⟨hfp, hlookup, rfl, rfl⟩ := yields_temp.mp h
  · exact ⟨hr.leads, .inl rfl⟩
  · obtain ⟨l₁, l₂, heq, -⟩ := lookup_eq_some_iff.mp hlookup
    have hmem : (name, t) ∈ r'.temps := heq ▸ mem_append_right _ mem_cons_self
    have hkind := (hr.entries _ hmem).1
    refine ⟨hr.leads, .inr ?_⟩
    rwa [Temp.name, hkind]
  · have hnew : name ∉ r.temps.map Prod.fst := by
      rw [lookup_eq_none_iff] at hlookup
      intro hmem
      obtain ⟨entry, he, rfl⟩ := mem_map.mp hmem
      simpa using hlookup entry he
    refine ⟨⟨⟨Nat.le_succ _, fun _ h => h, rfl⟩, fun _ h => mem_append_left _ h,
      hr.atoms, ?_, ?_⟩, .inr (mem_append_right _ mem_cons_self)⟩
    · refine forall_mem_append.mpr ⟨fun entry he => ?_, forall_mem_singleton.mpr
        ⟨rfl, Nat.lt_succ_self _, hfp, hname⟩⟩
      obtain ⟨hkind, hlt, hrest⟩ := hr.entries entry he
      exact ⟨hkind, Nat.lt_succ_of_lt hlt, hrest⟩
    · rw [map_append]
      refine nodup_append.mpr ⟨hr.nodup, nodup_singleton _, ?_⟩
      rintro a ha b hb rfl
      obtain rfl := mem_singleton.mp hb
      exact hnew ha

end Reader

/-! ## Nodes -/

/-- The node was **read** by a reader: it mentions what the reader has met, and if it
is a sequence, each of its statements does something. -/
def Node.ReadBy (r : Reader) : Node → Prop
  | .exp (.name l) => r.Knows l
  | .exp (.temp t) => r.Holds t
  | .stm (.jump l) => r.Knows l
  | .stm (.cjump _ _ _ l) => r.Knows l
  | .stm (.label l) => r.Knows l
  | .stm (.seq a b) => ∀ s ∈ (Stm.seq a b).flatten, s.isNop = false
  | _ => True

theorem Node.ReadBy.mono {r r' : Reader} {n : Node} (h : Node.ReadBy r n) (hleads : r.Leads r') :
    Node.ReadBy r' n := by
  have hknows : ∀ {l}, r.Knows l → r'.Knows l := fun hl => ⟨hleads.session.labels _ hl.1, hl.2⟩
  have hholds : ∀ {t}, r.Holds t → r'.Holds t := fun ht => ht.imp_right (hleads.temps _)
  unfold Node.ReadBy at h ⊢
  split at h
  · exact hknows h
  · exact hholds h
  · exact hknows h
  · exact hknows h
  · exact hknows h
  · exact h
  · trivial

/-- The nodes of what is read in one go. -/
def Item.nodes : Item → List Node
  | stm s => s.nodes
  | stms l => l.flatMap Stm.nodes
  | exp e => e.nodes
  | exps es => Exp.nodesAll es

/-- All nodes were read by a reader. -/
def AllRead (r : Reader) (nodes : List Node) : Prop := ∀ n ∈ nodes, Node.ReadBy r n

theorem AllRead.mono {r r' : Reader} {nodes : List Node} (h : AllRead r nodes)
    (hleads : r.Leads r') : AllRead r' nodes := fun n hn => (h n hn).mono hleads

section Sequences

variable {r : Reader} {s : Stm}

/-- A statement that does something consists of statements that do. -/
theorem AllRead.of_mem_flatten (h : AllRead r s.nodes) (hs : s.isNop = false) :
    ∀ x ∈ s.flatten, x.isNop = false := by
  cases s with
  | seq a b => exact h _ mem_cons_self
  | move | exp | jump | cjump | label => exact forall_mem_singleton.mpr hs

theorem AllRead.chain {stms : List Stm} (h : ∀ s ∈ stms, AllRead r s.nodes)
    (hstms : ∀ s ∈ stms, s.isNop = false) :
    AllRead r (Stm.chain stms).nodes ∧
      (stms ≠ [] → ∀ x ∈ (Stm.chain stms).flatten, x.isNop = false) := by
  induction stms with
  | nil => exact ⟨by simp [AllRead, Stm.chain, Stm.nop, Stm.nodes, Exp.nodes, Node.ReadBy],
      fun h => absurd rfl h⟩
  | cons s stms ih =>
    rw [forall_mem_cons] at h hstms
    obtain ⟨hrest, hflat⟩ := ih h.2 hstms.2
    cases stms with
    | nil => exact ⟨h.1, fun _ => h.1.of_mem_flatten hstms.1⟩
    | cons s' stms =>
      have hall : ∀ x ∈ (Stm.seq s (Stm.chain (s' :: stms))).flatten, x.isNop = false :=
        forall_mem_append.mpr ⟨h.1.of_mem_flatten hstms.1, hflat (cons_ne_nil _ _)⟩
      exact ⟨forall_mem_cons.mpr ⟨hall, forall_mem_append.mpr ⟨h.1, hrest⟩⟩, fun _ => hall⟩

theorem AllRead.seqAll {stms : List Stm} (h : AllRead r (stms.flatMap Stm.nodes)) :
    AllRead r (Stm.seqAll stms).nodes := by
  have h : ∀ s ∈ stms, AllRead r s.nodes := forall_mem_flatMap.mp h
  refine (AllRead.chain (fun s hs => h s (mem_of_mem_filter hs)) fun s hs => ?_).1
  simpa using (mem_filter.mp hs).2

end Sequences

namespace Reader

variable {r r' : Reader}

/-- **What is read is in order.** -/
theorem Reads.leads {item : Item} (h : r.Reads item r') (hr : r.InOrder) :
    r.Leads r' ∧ AllRead r' item.nodes := by
  induction h with
  | seq head _ close ih =>
    have h₁ := head.leads hr
    obtain ⟨h₂, hbody⟩ := ih h₁.inOrder
    have h₃ := close.leads h₂.inOrder
    exact ⟨h₁.trans (h₂.trans h₃), (hbody.mono h₃).seqAll⟩
  | expStm head _ close ih | not head _ close ih | mem head _ close ih =>
    have h₁ := head.leads hr
    obtain ⟨h₂, hvalue⟩ := ih h₁.inOrder
    have h₃ := close.leads h₂.inOrder
    exact ⟨h₁.trans (h₂.trans h₃), forall_mem_cons.mpr ⟨trivial, hvalue.mono h₃⟩⟩
  | jump head label close | label head label close | name head label close =>
    have h₁ := head.leads hr
    obtain ⟨h₂, hlabel⟩ := label.leads h₁.inOrder
    have h₃ := close.leads h₂.inOrder
    exact ⟨h₁.trans (h₂.trans h₃), forall_mem_singleton.mpr
      ⟨h₃.session.labels _ hlabel.1, hlabel.2⟩⟩
  | cjump head relation _ _ target close ih ih' =>
    have h₁ := head.leads hr
    have h₂ := relation.leads h₁.inOrder
    obtain ⟨h₃, hleft⟩ := ih h₂.inOrder
    obtain ⟨h₄, hright⟩ := ih' h₃.inOrder
    obtain ⟨h₅, hlabel⟩ := target.leads h₄.inOrder
    have h₆ := close.leads h₅.inOrder
    have hlast := h₅.trans h₆
    exact ⟨h₁.trans (h₂.trans (h₃.trans (h₄.trans hlast))), forall_mem_cons.mpr
      ⟨⟨h₆.session.labels _ hlabel.1, hlabel.2⟩, forall_mem_append.mpr
        ⟨hleft.mono (h₄.trans hlast), hright.mono hlast⟩⟩⟩
  | noStms | noExps => exact ⟨hr.leads, forall_mem_nil _⟩
  | moreStms _ _ ih ih' | moreExps _ _ ih ih' =>
    obtain ⟨h₁, hfirst⟩ := ih hr
    obtain ⟨h₂, hrest⟩ := ih' h₁.inOrder
    exact ⟨h₁.trans h₂, forall_mem_append.mpr ⟨hfirst.mono h₂, hrest⟩⟩
  | framePointer name => exact ⟨name.leads hr, forall_mem_singleton.mpr (.inl rfl)⟩
  | numeral atom value => exact ⟨atom.leads hr, forall_mem_singleton.mpr trivial⟩
  | const head atom value close =>
    have h₁ := head.leads hr
    have h₂ := atom.leads h₁.inOrder
    exact ⟨h₁.trans (h₂.trans (close.leads h₂.inOrder)), forall_mem_singleton.mpr trivial⟩
  | temp head atom meaning close =>
    have h₁ := head.leads hr
    have h₂ := atom.leads h₁.inOrder
    obtain ⟨h₃, htemp⟩ := leads_of_temp meaning (atom.isAtom h₁.inOrder) h₂.inOrder
    have h₄ := close.leads h₃.inOrder
    exact ⟨h₁.trans (h₂.trans (h₃.trans h₄)),
      forall_mem_singleton.mpr (htemp.imp_right (h₄.temps _))⟩
  | binop head operator _ _ close ih ih' =>
    have h₁ := head.leads hr
    have h₂ := operator.leads h₁.inOrder
    obtain ⟨h₃, hleft⟩ := ih h₂.inOrder
    obtain ⟨h₄, hright⟩ := ih' h₃.inOrder
    have h₅ := close.leads h₄.inOrder
    exact ⟨h₁.trans (h₂.trans (h₃.trans (h₄.trans h₅))), forall_mem_cons.mpr ⟨trivial,
      forall_mem_append.mpr ⟨hleft.mono (h₄.trans h₅), hright.mono h₅⟩⟩⟩
  | move head _ _ close ih ih' | call head _ _ close ih ih' | eseq head _ _ close ih ih' =>
    have h₁ := head.leads hr
    obtain ⟨h₂, hfirst⟩ := ih h₁.inOrder
    obtain ⟨h₃, hsecond⟩ := ih' h₂.inOrder
    have h₄ := close.leads h₃.inOrder
    exact ⟨h₁.trans (h₂.trans (h₃.trans h₄)), forall_mem_cons.mpr ⟨trivial,
      forall_mem_append.mpr ⟨hfirst.mono (h₃.trans h₄), hsecond.mono h₄⟩⟩⟩

/-! ## Methods -/

/-- The temps that the nodes mention belong to the session. -/
theorem Holds.owns {t : Temp} (h : r.Holds t) (hr : r.InOrder) : r.session.Owns t := by
  obtain rfl | h := h
  · rfl
  · obtain ⟨hkind, hlt, -⟩ := hr.entries _ h
    unfold Session.Owns
    rw [hkind]
    exact hlt

/-- A method is read with a table of its own. -/
theorem ReadsMethod.leads {m : MethodText} (h : r.ReadsMethod m r') (hr : r.InOrder) :
    r'.InOrder ∧ r.session.Continues r'.session ∧ r'.temps = m.temps ∧ AllRead r' m.body.nodes := by
  obtain ⟨r₁, r₂, r₃, head, name, body, close, htemps⟩ := h
  have h₁ := head.leads hr
  have h₂ := name.leads h₁.inOrder
  obtain ⟨h₃, hbody⟩ := body.leads ⟨h₂.inOrder.atoms, forall_mem_nil _, nodup_nil⟩
  have h₄ := close.leads h₃.inOrder
  exact ⟨h₄.inOrder, h₁.session.trans (h₂.session.trans (h₃.session.trans h₄.session)),
    htemps.symm, hbody.mono h₄⟩

theorem ReadsMethods.leads {ms : List MethodText} (h : r.ReadsMethods ms r') (hr : r.InOrder) :
    r.session.Continues r'.session ∧ ∀ m ∈ ms, ∃ u : Reader, u.InOrder ∧
      u.session.Continues r'.session ∧ u.temps = m.temps ∧ AllRead u m.body.nodes := by
  induction h with
  | nil => exact ⟨.refl _, forall_mem_nil _⟩
  | cons first _ ih =>
    obtain ⟨h₁, hcontinues, htemps, hbody⟩ := first.leads hr
    obtain ⟨hrest, hall⟩ := ih h₁
    exact ⟨hcontinues.trans hrest, forall_mem_cons.mpr ⟨⟨_, h₁, hrest, htemps, hbody⟩, hall⟩⟩

end Reader

/-- **The methods of a text** mention temps of the session. -/
theorem owns_of_readMethods {text : String} {ms : List MethodText} {s u : Session}
    (h : Yields (readMethods text) s ms u) {m : MethodText} (hm : m ∈ ms) :
    (∀ n ∈ m.body.nodes, ∀ t ∈ n.temp?, u.Owns t) ∧ ∀ name, ∀ t ∈ m.temp? name, u.Owns t := by
  obtain ⟨r', hmethods, rfl⟩ := yields_readMethods_iff.mp h
  obtain ⟨r, hr, hcontinues, htemps, hbody⟩ :=
    (hmethods.leads (Reader.inOrder_ofText text s)).2 m hm
  refine ⟨fun n hn t ht => ?_, fun name t ht => ?_⟩
  · have hread := hbody n hn
    cases n with
    | stm => cases ht
    | exp e =>
      cases e with
      | temp t' =>
        obtain rfl := Option.some.inj ht
        exact (Reader.Holds.owns hread hr).mono hcontinues.le
      | const | name | binop | not | mem | call | eseq => cases ht
  · obtain ⟨l₁, l₂, heq, -⟩ := lookup_eq_some_iff.mp ht
    have hmem : (name, t) ∈ r.temps := htemps ▸ heq ▸ mem_append_right _ mem_cons_self
    have hkind := (hr.entries _ hmem).1
    refine (Reader.Holds.owns (.inr ?_) hr).mono hcontinues.le
    rwa [Temp.name, hkind]

end Text

end TreeBackend
