import TreeBackend.Proofs.PrintedTokens
import TreeBackend.Proofs.TreeRenaming

/-!
# Printed trees are read back

Printing a tree and reading the text gives back the tree in **normal form**: the
printer writes a sequence, however it nests, as one list, and the reader nests a
list to the right and leaves out the statements in it that only evaluate a constant
(`Stm.normal`). Labels come back as they were. Temps come back as new ones under
their old names, the same temp for the same name (`Text.meaning`).

Since the scanner finds the parentheses and atoms of a tree in its text, it is
enough to go through these. What stands in the table of the reader stays there, so
that a name read early means the same when the end is reached; each step is stated
for all tables that the one it leaves may grow into (`Text.Returns`).
-/

namespace TreeBackend

open List Text

/-! ## Normal forms -/

/-- A sequence is put together again from its plain statements; a plain statement is
itself. -/
def Stm.rebuild (isSeq : Bool) (stms : List Stm) : Stm := if isSeq then seqAll stms else chain stms

mutual

/-- The **normal form** of an expression. -/
def Exp.normal : Exp → Exp
  | .const n => .const n
  | .name l => .name l
  | .temp t => .temp t
  | .binop op l r => .binop op l.normal r.normal
  | .not e => .not e.normal
  | .mem address => .mem address.normal
  | .call f args => .call f.normal (Exp.normalAll args)
  | .eseq s e => .eseq (Stm.rebuild s.isSeq s.plainNormals) e.normal

/-- The normal forms of expressions. -/
def Exp.normalAll : List Exp → List Exp
  | [] => []
  | e :: es => e.normal :: Exp.normalAll es

/-- The normal forms of the plain statements of a statement. -/
def Stm.plainNormals : Stm → List Stm
  | .move dst src => [.move dst.normal src.normal]
  | .exp e => [.exp e.normal]
  | .jump l => [.jump l]
  | .cjump rel l r target => [.cjump rel l.normal r.normal target]
  | .label l => [.label l]
  | .seq a b => a.plainNormals ++ b.plainNormals

end

/-- The **normal form** of a statement. -/
def Stm.normal (s : Stm) : Stm := Stm.rebuild s.isSeq s.plainNormals

/-! ## Steps of the reader -/

namespace Text

/-- A table of the temps that names stand for. -/
abbrev Table := List (String × Temp)

/-- What a temp of a printed tree means to a reader with a table. -/
def meaning (table : Table) (t : Temp) : Temp :=
  if t.isFramePointer then .framePointer else (table.lookup t.name).getD t

/-- One reader goes on to another and has **met** the temps of some nodes: its table
keeps what stands in it, and what is new in it was drawn on the way. -/
structure Reader.Meets (nodes : List Node) (r r' : Reader) : Prop where
  temps : r.temps <+: r'.temps
  fresh : ∀ entry ∈ r'.temps, entry ∈ r.temps ∨ r.session.tempCount ≤ entry.2.index
  le : r.session.tempCount ≤ r'.session.tempCount
  met : ∀ n ∈ nodes, ∀ t ∈ n.temp?, t.isFramePointer = false → ∃ u, r'.temps.lookup t.name = some u

theorem lookup_mono {table table' : Table} (h : table <+: table') {name : String} {t : Temp}
    (ht : table.lookup name = some t) : table'.lookup name = some t := by
  obtain ⟨more, rfl⟩ := h
  rw [lookup_append, ht]
  rfl

namespace Reader.Meets

variable {nodes nodes' : List Node} {r r' r'' : Reader}

theorem trans (h : r.Meets nodes r') (h' : r'.Meets nodes' r'') :
    r.Meets (nodes ++ nodes') r'' where
  temps := h.temps.trans h'.temps
  fresh entry hentry :=
    (h'.fresh entry hentry).elim (h.fresh entry) fun hle => .inr (h.le.trans hle)
  le := h.le.trans h'.le
  met := forall_mem_append.mpr ⟨fun n hn t ht hfp =>
    (h.met n hn t ht hfp).imp fun _ hu => lookup_mono h'.temps hu, h'.met⟩

/-- Where neither the table nor the number of temps changes. -/
theorem of_eq (htemps : r'.temps = r.temps) (hcount : r'.session.tempCount = r.session.tempCount) :
    r.Meets [] r' :=
  ⟨htemps ▸ prefix_rfl, fun _ hentry => .inl (htemps ▸ hentry), hcount.ge, nofun⟩

/-- A node that is no temp, or the frame pointer, may be added. -/
theorem cons (h : r.Meets nodes r') {n : Node} (hn : ∀ t ∈ n.temp?, t.isFramePointer = true) :
    r.Meets (n :: nodes) r' where
  temps := h.temps
  fresh := h.fresh
  le := h.le
  met := forall_mem_cons.mpr ⟨fun t ht hfp => absurd (hn t ht) (Bool.eq_false_iff.mp hfp), h.met⟩

end Reader.Meets

/-- Tokens of the sorts are **returned** as something that is read: from every reader
that has them before it, the temps of the nodes are met, and what is read is read with
all tables that the one reached may grow into. -/
def Returns (sorts : List Token.Sort) (nodes : List Node) (P : Table → Reader → Reader → Prop) :
    Prop :=
  ∀ ⦃found : List Token⦄ ⦃rest : List Token⦄ ⦃r : Reader⦄, found.map Token.sort = sorts →
    r.rest = found ++ rest →
    ∃ r', r'.rest = rest ∧ r.Meets nodes r' ∧ ∀ table, r'.temps <+: table → P table r r'

namespace Returns

variable {sorts sorts' : List Token.Sort} {nodes nodes' : List Node}
  {P Q : Table → Reader → Reader → Prop}

theorem imp (h : Returns sorts nodes P) (hpq : ∀ {table r r'}, P table r r' → Q table r r') :
    Returns sorts nodes Q := by
  intro found rest r hfound hrest
  obtain ⟨r', hrest', hmeets, hp⟩ := h hfound hrest
  exact ⟨r', hrest', hmeets, fun table htable => hpq (hp table htable)⟩

theorem node (h : Returns sorts nodes P) {n : Node} (hn : ∀ t ∈ n.temp?, t.isFramePointer = true) :
    Returns sorts (n :: nodes) P := by
  intro found rest r hfound hrest
  obtain ⟨r', hrest', hmeets, hp⟩ := h hfound hrest
  exact ⟨r', hrest', hmeets.cons hn, hp⟩

/-- **One after the other.** -/
theorem append (h : Returns sorts nodes P) (h' : Returns sorts' nodes' Q) :
    Returns (sorts ++ sorts') (nodes ++ nodes')
      fun table r r'' => ∃ r', P table r r' ∧ Q table r' r'' := by
  intro found rest r hfound hrest
  obtain ⟨first, second, rfl, hfirst, hsecond⟩ := map_eq_append_iff.mp hfound
  rw [append_assoc] at hrest
  obtain ⟨r', hrest', hmeets, hp⟩ := h hfirst hrest
  obtain ⟨r'', hrest'', hmeets', hq⟩ := h' hsecond hrest'
  exact ⟨r'', hrest'', hmeets.trans hmeets', fun table htable =>
    ⟨r', hp table (hmeets'.temps.trans htable), hq table htable⟩⟩

theorem takes (sort : Token.Sort) : Returns [sort] [] fun _ r r' => r.Takes sort r' := by
  intro found rest r hfound hrest
  obtain ⟨⟨sort', p⟩, rfl, rfl⟩ := map_eq_singleton_iff.mp hfound
  exact ⟨{ r with rest }, rfl, .of_eq rfl rfl, fun _ _ => ⟨p, rest, hrest, rfl⟩⟩

theorem label (l : Label) : Returns [.atom l.name] [] fun _ r r' => r.TakesLabel l r' := by
  intro found rest r hfound hrest
  obtain ⟨r', hrest', hmeets, htakes⟩ := takes (.atom l.name) hfound hrest
  refine ⟨{ r' with session := ((Session.namedLabel l.name).run r'.session).2 }, hrest', ?_,
    fun table htable => ⟨r', htakes table htable, rfl⟩⟩
  refine hmeets.trans (.of_eq rfl ?_)
  rw [Session.run_namedLabel]
  split <;> rfl

/-- **A temp** is met under its name. -/
theorem temp {t : Temp} (hfp : t.isFramePointer = false) (hname : t.name ≠ "fp") :
    Returns [.atom t.name] [.exp (.temp t)] fun table r r' =>
      ∃ u, r.Takes (.atom t.name) u ∧ Yields (Reader.temp t.name) u (meaning table t) r' := by
  intro found rest r hfound hrest
  obtain ⟨u, hrest', hmeets, htakes⟩ := takes (.atom t.name) hfound hrest
  have htakes := htakes _ prefix_rfl
  have hmeaning {table : Table} {t' : Temp} (h : table.lookup t.name = some t') :
      meaning table t = t' := by
    rw [meaning, hfp, if_neg Bool.false_ne_true, h]
    rfl
  cases hlookup : u.temps.lookup t.name with
  | some t' =>
    refine ⟨u, hrest', hmeets.trans ⟨prefix_rfl, fun _ h => .inl h, Nat.le_refl _, ?_⟩,
      fun table htable => ⟨u, htakes, ?_⟩⟩
    · exact forall_mem_singleton.mpr fun t'' ht'' _ => Option.some.inj ht'' ▸ ⟨t', hlookup⟩
    · rw [hmeaning (lookup_mono htable hlookup)]
      exact Reader.yields_temp.mpr (.inr (.inl ⟨hname, hlookup, rfl⟩))
  | none =>
    -- the name is new, and so is its temp
    let new : Temp := ⟨u.session.tempCount, .plain t.name⟩
    let r' : Reader := { u with
      temps := u.temps ++ [(t.name, new)]
      session := u.session.withTemp t.name }
    have hnew : r'.temps.lookup t.name = some new := by
      rw [lookup_append, hlookup]
      simp
    refine ⟨r', hrest', hmeets.trans ⟨prefix_append _ _, ?_, Nat.le_succ _, ?_⟩,
      fun table htable => ⟨u, htakes, ?_⟩⟩
    · intro entry hentry
      obtain hentry | hentry := mem_append.mp hentry
      · exact .inl hentry
      · rw [mem_singleton.mp hentry]
        exact .inr (Nat.le_refl _)
    · exact forall_mem_singleton.mpr fun t'' ht'' _ => Option.some.inj ht'' ▸ ⟨new, hnew⟩
    · rw [hmeaning (lookup_mono htable hnew)]
      exact Reader.yields_temp.mpr (.inr (.inr ⟨hname, hlookup, rfl, rfl⟩))

/-- What stands between a keyword and the parenthesis that closes its form. -/
theorem form (keyword : String) (h : Returns sorts nodes P) :
    Returns (formSorts keyword sorts) nodes fun table r r' =>
      ∃ r₁ r₂, r.Heads keyword r₁ ∧ P table r₁ r₂ ∧ r₂.Takes .closing r' := by
  have hall := ((takes .opening).append (takes (.atom keyword))).append (h.append (takes .closing))
  simp only [append_nil, nil_append] at hall
  refine hall.imp ?_
  rintro table r r' ⟨r₁, ⟨u, hopen, hatom⟩, r₂, hp, hclose⟩
  exact ⟨r₁, r₂, ⟨u, hopen, hatom⟩, hp, hclose⟩

end Returns

end Text

/-! ## Trees are read back -/

/-- The expression in normal form, with the temps that its names mean. -/
def Exp.readAs (table : Table) (e : Exp) : Exp := e.normal.mapTemps (meaning table)

/-- The statement in normal form, with the temps that its names mean. -/
def Stm.readAs (table : Table) (s : Stm) : Stm := s.normal.mapTemps (meaning table)

/-- What follows plain statements in a row of statements goes on after them. -/
def Stm.Continue (s : Stm) (table : Table) (r r' : Reader) : Prop :=
  ∀ {more r''}, r'.Reads (.stms more) r'' →
    r.Reads (.stms (s.plainNormals.map (Stm.mapTemps (meaning table)) ++ more)) r''

/-- A statement is read back if its plain statements are. -/
theorem Stm.returns_of_plain {s : Stm}
    (hplain : s.isSeq = false → Returns s.plainSorts s.nodes fun table r r' =>
      r.Reads (.stm (s.readAs table)) r')
    (hrow : Returns s.plainSorts s.nodes s.Continue) :
    Returns s.sorts s.nodes fun table r r' => r.Reads (.stm (s.readAs table)) r' := by
  cases hseq : s.isSeq with
  | false =>
    rw [Stm.sorts, hseq]
    exact hplain hseq
  | true =>
    rw [Stm.sorts, hseq]
    refine (hrow.form "seq").imp ?_
    rintro table r r' ⟨r₁, r₂, head, hrow, close⟩
    have hend : r₂.Reads (.stms []) r₂ := .noStms (by rw [close.head?]; simp)
    have heq : s.readAs table = seqAll (s.plainNormals.map (Stm.mapTemps (meaning table))) := by
      rw [Stm.readAs, Stm.normal, hseq]
      exact mapTemps_seqAll _
    rw [heq]
    have hbody := hrow hend
    rw [append_nil] at hbody
    exact .seq head hbody close

mutual

/-- **An expression is read back.** -/
theorem Exp.returns (e : Exp) (h : ∀ n ∈ e.nodes, n.Printable) :
    Returns e.sorts e.nodes fun table r r' => r.Reads (.exp (e.readAs table)) r' := by
  cases e with
  | const n =>
    exact ((Returns.takes _).imp fun htakes =>
      .numeral htakes (Word.ofNumeral?_toString n)).node nofun
  | name l =>
    refine (((Returns.label l).form "name").imp ?_).node nofun
    rintro table r r' ⟨r₁, r₂, head, place, close⟩
    exact .name head place close
  | temp t =>
    cases hfp : t.isFramePointer with
    | true =>
      rw [Exp.sorts, if_pos hfp]
      refine ((Returns.takes _).imp fun {table r r'} htakes => ?_).node fun t' ht' => ?_
      · have hmeaning : (Exp.temp t).readAs table = .temp .framePointer := by
          rw [Exp.readAs, Exp.normal, Exp.mapTemps, meaning, if_pos hfp]
        rw [hmeaning]
        exact .framePointer htakes
      · rw [← Option.some.inj ht', hfp]
    | false =>
      have hname : t.name ≠ "fp" := (h _ mem_cons_self hfp).2
      rw [Exp.sorts, hfp, if_neg Bool.false_ne_true]
      refine ((Returns.temp hfp hname).form "temp").imp ?_
      rintro table r r' ⟨r₁, r₂, head, ⟨u, atom, meaning⟩, close⟩
      exact .temp head atom meaning close
  | binop op l r =>
    obtain ⟨-, hleft, hright⟩ := Node.forall_mem_parts.mp h
    have hl := l.returns hleft
    have hr := r.returns hright
    refine ((((Returns.takes (.atom op.name)).append (hl.append hr)).form "binop").imp ?_).node nofun
    rintro table r r' ⟨r₁, r₂, head, ⟨r₃, operator, r₄, left, right⟩, close⟩
    exact .binop head operator left right close
  | not e =>
    have he := e.returns (forall_mem_cons.mp h).2
    refine ((he.form "not").imp ?_).node nofun
    rintro table r r' ⟨r₁, r₂, head, value, close⟩
    exact .not head value close
  | mem e =>
    have he := e.returns (forall_mem_cons.mp h).2
    refine ((he.form "mem").imp ?_).node nofun
    rintro table r r' ⟨r₁, r₂, head, address, close⟩
    exact .mem head address close
  | call f args =>
    obtain ⟨-, hleft, hright⟩ := Node.forall_mem_parts.mp h
    have hf := f.returns hleft
    have hargs := Exp.returnsAll args hright
    refine (((hf.append hargs).form "call").imp ?_).node nofun
    rintro table r r' ⟨r₁, r₂, head, ⟨r₃, function, arguments⟩, close⟩
    exact .call head function (arguments close.head?) close
  | eseq s e =>
    obtain ⟨-, hleft, hright⟩ := Node.forall_mem_parts.mp h
    obtain ⟨hplain, hrow⟩ := s.returns hleft
    have he := e.returns hright
    refine ((((Stm.returns_of_plain hplain hrow).append he).form "eseq").imp ?_).node nofun
    rintro table r r' ⟨r₁, r₂, head, ⟨r₃, effect, value⟩, close⟩
    exact .eseq head effect value close

theorem Exp.returnsAll (es : List Exp) (h : ∀ n ∈ Exp.nodesAll es, n.Printable) :
    Returns (Exp.sortsAll es) (Exp.nodesAll es) fun table r r' =>
      r'.rest.head?.map Token.sort = some .closing →
        r.Reads (.exps (Exp.mapTempsAll (meaning table) (Exp.normalAll es))) r' := by
  cases es with
  | nil =>
    intro found rest r hfound hrest
    obtain rfl := map_eq_nil_iff.mp hfound
    exact ⟨r, hrest, .of_eq rfl rfl, fun _ _ hclosing => .noExps (.inr hclosing)⟩
  | cons e es =>
    rw [Exp.nodesAll, forall_mem_append] at h
    have he := e.returns h.1
    have hes := Exp.returnsAll es h.2
    refine (he.append hes).imp ?_
    rintro table r r' ⟨r₁, first, rest⟩ hclosing
    exact .moreExps first (rest hclosing)

/-- **The plain statements of a statement are read back**, one by one. -/
theorem Stm.returns (s : Stm) (h : ∀ n ∈ s.nodes, n.Printable) :
    (s.isSeq = false → Returns s.plainSorts s.nodes fun table r r' =>
      r.Reads (.stm (s.readAs table)) r') ∧
    Returns s.plainSorts s.nodes s.Continue := by
  -- a row of one statement goes on after it
  have hrow {s : Stm}
      (hone : ∀ table, s.plainNormals.map (Stm.mapTemps (meaning table)) = [s.readAs table])
      (hplain : Returns s.plainSorts s.nodes fun table r r' => r.Reads (.stm (s.readAs table)) r') :
      (s.isSeq = false → Returns s.plainSorts s.nodes fun table r r' =>
        r.Reads (.stm (s.readAs table)) r') ∧ Returns s.plainSorts s.nodes s.Continue := by
    refine ⟨fun _ => hplain, hplain.imp fun {table r r'} hread => ?_⟩
    intro more r'' hmore
    rw [hone]
    exact .moreStms hread hmore
  cases s with
  | move dst src =>
    obtain ⟨-, hleft, hright⟩ := Node.forall_mem_parts.mp h
    have hdst := dst.returns hleft
    have hsrc := src.returns hright
    refine hrow (fun _ => rfl) ((((hdst.append hsrc).form "move").imp ?_).node nofun)
    rintro table r r' ⟨r₁, r₂, head, ⟨r₃, left, right⟩, close⟩
    exact .move head left right close
  | exp e =>
    have he := e.returns (forall_mem_cons.mp h).2
    refine hrow (fun _ => rfl) (((he.form "exp").imp ?_).node nofun)
    rintro table r r' ⟨r₁, r₂, head, value, close⟩
    exact .expStm head value close
  | jump l =>
    refine hrow (fun _ => rfl) ((((Returns.label l).form "jump").imp ?_).node nofun)
    rintro table r r' ⟨r₁, r₂, head, target, close⟩
    exact .jump head target close
  | cjump rel l r target =>
    obtain ⟨-, hleft, hright⟩ := Node.forall_mem_parts.mp h
    have hl := l.returns hleft
    have hr := r.returns hright
    have hall := ((Returns.takes (.atom rel.name)).append
      (hl.append (hr.append (.label target)))).form "cjump"
    rw [append_nil, nil_append] at hall
    refine hrow (fun _ => rfl) ((hall.imp ?_).node nofun)
    rintro table r r' ⟨r₁, r₂, head, ⟨r₃, relation, r₄, first, r₅, second, target⟩, close⟩
    exact .cjump head relation first second target close
  | label l =>
    refine hrow (fun _ => rfl) ((((Returns.label l).form "label").imp ?_).node nofun)
    rintro table r r' ⟨r₁, r₂, head, place, close⟩
    exact .label head place close
  | seq a b =>
    obtain ⟨-, hleft, hright⟩ := Node.forall_mem_parts.mp h
    have ha := (a.returns hleft).2
    have hb := (b.returns hright).2
    refine ⟨nofun, ((ha.append hb).imp ?_).node nofun⟩
    rintro table r r' ⟨r₁, first, second⟩ more r'' hmore
    rw [Stm.plainNormals, map_append, append_assoc]
    exact first (second hmore)

end

/-- **A printed tree is read back**, whatever the session. -/
theorem Stm.reads_print {s : Stm} (h : ∀ n ∈ s.nodes, n.Printable) (session : Session) :
    ∃ r', (Reader.ofText s.print session).Reads (.stm (s.readAs r'.temps)) r' ∧ r'.rest = [] ∧
      (Reader.ofText s.print session).Meets s.nodes r' := by
  obtain ⟨hplain, hrow⟩ := s.returns h
  have hrest : (Reader.ofText s.print session).rest = tokens s.print ++ [] := (append_nil _).symm
  obtain ⟨r', hrest, hmeets, hreads⟩ := returns_of_plain hplain hrow (sorts_tokens_print h) hrest
  exact ⟨r', hreads _ prefix_rfl, hrest, hmeets⟩

/-! ## Printing what was read -/

/-- The node prints as before in normal form and with other temps: a temp is shown as
before, and no statement of a sequence only evaluates a constant. -/
def Node.Settled (ρ : Temp → Temp) : Node → Prop
  | .exp (.temp t) => (ρ t).print = t.print
  | .stm (.seq a b) => ∀ x ∈ (Stm.seq a b).flatten, x.isNop = false
  | _ => True

namespace Stm

variable {ρ : Temp → Temp}

theorem plainLines_chain {stms : List Stm} (h : stms ≠ []) :
    (chain stms).plainLines = stms.flatMap plainLines := by
  induction stms with
  | nil => exact absurd rfl h
  | cons s stms ih =>
    cases stms with
    | nil => exact (append_nil _).symm
    | cons s' stms =>
      show s.plainLines ++ (chain (s' :: stms)).plainLines = _
      rw [ih (cons_ne_nil _ _)]
      rfl

theorem length_plainNormals_pos (s : Stm) : 0 < s.plainNormals.length := by
  cases s with
  | seq a b =>
    rw [plainNormals, length_append]
    exact Nat.add_pos_left a.length_plainNormals_pos _
  | move | exp | jump | cjump | label => exact Nat.zero_lt_one

/-- The normal form of a plain statement does something if the statement does. -/
theorem isNop_plainNormals {s : Stm} (h : ∀ x ∈ s.flatten, x.isNop = false) :
    ∀ x ∈ s.plainNormals, x.isNop = false := by
  cases s with
  | seq a b =>
    rw [flatten, forall_mem_append] at h
    rw [plainNormals, forall_mem_append]
    exact ⟨isNop_plainNormals h.1, isNop_plainNormals h.2⟩
  | exp e =>
    have hno : (Stm.exp e).isNop = false := h _ mem_cons_self
    refine forall_mem_singleton.mpr ?_
    cases e with
    | const => cases hno
    | name | temp | binop | not | mem | call | eseq => rfl
  | move | jump | cjump | label => exact forall_mem_singleton.mpr rfl

/-- A statement in normal form is printed like its plain statements, one after the other,
and as a sequence if it is one. -/
theorem lines_normal {s : Stm} (hsettled : ∀ a b, s = seq a b → ∀ x ∈ s.flatten, x.isNop = false)
    (hplain : (s.plainNormals.map (mapTemps ρ)).flatMap plainLines = s.plainLines) :
    ((s.normal.mapTemps ρ).isSeq = s.isSeq) ∧ (s.normal.mapTemps ρ).plainLines = s.plainLines := by
  cases s with
  | seq a b =>
    have hnone := isNop_plainNormals (hsettled a b rfl)
    have hfilter : (seq a b).plainNormals.filter (fun s => !s.isNop) = (seq a b).plainNormals :=
      filter_eq_self.mpr fun x hx => by rw [hnone x hx]; rfl
    have hnormal : (seq a b).normal = chain (seq a b).plainNormals := by
      show seqAll _ = _
      rw [seqAll, hfilter]
    have hlength : 2 ≤ (seq a b).plainNormals.length := by
      rw [plainNormals, length_append]
      have := a.length_plainNormals_pos
      have := b.length_plainNormals_pos
      omega
    rw [hnormal, isSeq_mapTemps, mapTemps_chain, plainLines_chain, hplain]
    · refine ⟨?_, rfl⟩
      generalize (seq a b).plainNormals = stms at hlength ⊢
      cases stms with
      | nil => exact absurd hlength (by decide)
      | cons x rest =>
        cases rest with
        | nil => exact absurd hlength (Nat.lt_irrefl 1)
        | cons y rest => rfl
    · exact ne_nil_of_length_pos (by rw [length_map]; omega)
  | move | exp | jump | cjump | label => exact ⟨rfl, (append_nil _).symm.trans hplain⟩

end Stm

mutual

theorem Exp.print_normal {ρ : Temp → Temp} (e : Exp) (h : ∀ n ∈ e.nodes, n.Settled ρ) :
    (e.normal.mapTemps ρ).print = e.print := by
  cases e with
  | const | name => rfl
  | temp t => exact h _ mem_cons_self
  | binop op l r =>
    obtain ⟨-, hleft, hright⟩ := Node.forall_mem_parts.mp h
    have hl := l.print_normal hleft
    have hr := r.print_normal hright
    simp only [Exp.normal, Exp.mapTemps, Exp.print, hl, hr]
  | not e | mem e =>
    have he := e.print_normal (forall_mem_cons.mp h).2
    simp only [Exp.normal, Exp.mapTemps, Exp.print, he]
  | call f args =>
    obtain ⟨-, hleft, hright⟩ := Node.forall_mem_parts.mp h
    have hf := f.print_normal hleft
    have hargs := Exp.printArgs_normal args hright
    simp only [Exp.normal, Exp.mapTemps, Exp.print, hf, hargs]
  | eseq s e =>
    obtain ⟨-, hleft, hright⟩ := Node.forall_mem_parts.mp h
    have hnodes : ∀ n ∈ s.nodes, n.Settled ρ := hleft
    have he := e.print_normal hright
    obtain ⟨hseq, hlines⟩ := Stm.lines_normal (fun a b heq => by
      subst heq
      exact hnodes _ mem_cons_self) (s.plainLines_normal hnodes)
    have hs : (Exp.eseq s e).normal.mapTemps ρ
        = .eseq (s.normal.mapTemps ρ) (e.normal.mapTemps ρ) := rfl
    rw [hs, Exp.print, hseq, hlines, he, Exp.print]

theorem Exp.printArgs_normal {ρ : Temp → Temp} (es : List Exp)
    (h : ∀ n ∈ Exp.nodesAll es, n.Settled ρ) :
    Exp.printArgs (Exp.mapTempsAll ρ (Exp.normalAll es)) = Exp.printArgs es := by
  cases es with
  | nil => rfl
  | cons e es =>
    rw [Exp.nodesAll, forall_mem_append] at h
    have he := e.print_normal h.1
    have hes := Exp.printArgs_normal es h.2
    simp only [Exp.normalAll, Exp.mapTempsAll, Exp.printArgs, he, hes]

theorem Stm.plainLines_normal {ρ : Temp → Temp} (s : Stm) (h : ∀ n ∈ s.nodes, n.Settled ρ) :
    (s.plainNormals.map (Stm.mapTemps ρ)).flatMap Stm.plainLines = s.plainLines := by
  cases s with
  | exp e =>
    have he := e.print_normal (forall_mem_cons.mp h).2
    simp [Stm.plainNormals, Stm.mapTemps, Stm.plainLines, he]
  | jump l | label l => rfl
  | move l r | cjump _ l r =>
    obtain ⟨-, hleft, hright⟩ := Node.forall_mem_parts.mp h
    have hl := l.print_normal hleft
    have hr := r.print_normal hright
    simp [Stm.plainNormals, Stm.mapTemps, Stm.plainLines, hl, hr]
  | seq a b =>
    obtain ⟨-, hleft, hright⟩ := Node.forall_mem_parts.mp h
    rw [Stm.plainNormals, map_append, flatMap_append, a.plainLines_normal hleft,
      b.plainLines_normal hright,
      Stm.plainLines]

end

/-- **A settled tree prints as its normal form does.** -/
theorem Stm.print_normal {ρ : Temp → Temp} {s : Stm} (h : ∀ n ∈ s.nodes, n.Settled ρ) :
    (s.normal.mapTemps ρ).print = s.print := by
  obtain ⟨hseq, hlines⟩ := Stm.lines_normal (fun a b heq => by
    subst heq
    exact h _ mem_cons_self) (s.plainLines_normal h)
  rw [Stm.print, Stm.lines, hseq, hlines, Stm.print, Stm.lines]

/-! ## Texts -/

/-- What was read can be printed. -/
theorem Node.printable_of_readBy {r : Reader} (hr : r.InOrder) {n : Node} (h : Node.ReadBy r n) :
    n.Printable := by
  cases n with
  | exp e =>
    cases e with
    | const => exact h
    | name l => exact h.2
    | temp t =>
      intro hfp
      obtain rfl | hmem := h
      · cases hfp
      · exact ((hr.entries _ hmem).2.2).symm
    | binop | not | mem | call | eseq => trivial
  | stm s =>
    cases s with
    | jump l | cjump _ _ _ l | label l => exact h.2
    | move | exp | seq => trivial

/-- The temps in a tree are **renewed** from one session to another: the frame pointer
is the frame pointer, and other temps are plain temps of the same names that were drawn
in between. -/
structure Stm.Renews (s : Stm) (ρ : Temp → Temp) (session session' : Session) : Prop where
  framePointer : ∀ {t : Temp}, t.isFramePointer = true → ρ t = .framePointer
  name : ∀ {t : Temp}, .exp (.temp t) ∈ s.nodes → t.isFramePointer = false →
    (ρ t).kind = .plain t.name
  fresh : ∀ {t : Temp}, .exp (.temp t) ∈ s.nodes → t.isFramePointer = false →
    session.tempCount ≤ (ρ t).index ∧ (ρ t).index < session'.tempCount

namespace Stm

variable {s : Stm} {ρ : Temp → Temp} {session session' : Session}

/-- **Reading back a printed tree** gives its normal form with other temps. -/
theorem exists_readStm_print (h : ∀ n ∈ s.nodes, n.Printable) (session : Session) :
    ∃ ρ temps session', Yields (readStm s.print) session (s.normal.mapTemps ρ, temps) session' ∧
      session.Continues session' ∧ s.Renews ρ session session' := by
  obtain ⟨r', hreads, hrest, hmeets⟩ := reads_print h session
  obtain ⟨hleads, -⟩ := hreads.leads (Reader.inOrder_ofText s.print session)
  refine ⟨meaning r'.temps, r'.temps, r'.session,
    yields_readStm_iff.mpr ⟨r', hreads, hrest, rfl, rfl⟩, hleads.session, ?_⟩
  -- a temp that was met has an entry in the table
  have hentry {t : Temp} (ht : .exp (.temp t) ∈ s.nodes) (hfp : t.isFramePointer = false) :
      (t.name, meaning r'.temps t) ∈ r'.temps := by
    obtain ⟨u, hu⟩ := hmeets.met _ ht t rfl hfp
    obtain ⟨l₁, l₂, heq, -⟩ := lookup_eq_some_iff.mp hu
    rw [meaning, hfp, if_neg Bool.false_ne_true, hu, heq]
    exact mem_append_right _ mem_cons_self
  refine ⟨fun hfp => if_pos hfp, fun ht hfp => ?_, fun ht hfp => ⟨?_, ?_⟩⟩
  · exact (hleads.inOrder.entries _ (hentry ht hfp)).1
  · exact (hmeets.fresh _ (hentry ht hfp)).resolve_left nofun
  · exact (hleads.inOrder.entries _ (hentry ht hfp)).2.1

/-- Renewed temps are shown as before. -/
theorem Renews.print (h : s.Renews ρ session session') {t : Temp}
    (ht : .exp (.temp t) ∈ s.nodes) : (ρ t).print = t.print := by
  cases hfp : t.isFramePointer with
  | true =>
    rw [h.framePointer hfp, Temp.print, Temp.print, if_pos hfp]
    rfl
  | false =>
    have hkind := h.name ht hfp
    have hfp' : (ρ t).isFramePointer = false := by rw [Temp.isFramePointer, hkind]; rfl
    have hname : (ρ t).name = t.name := by rw [Temp.name, hkind]; rfl
    rw [Temp.print, Temp.print, hfp, hfp', hname]

/-- The tree is **printable**: its names are atoms, no temp but the frame pointer is called
`fp`, different temps have different names, the frame pointer apart, and constants fit a
word. -/
structure Printable (s : Stm) : Prop where
  nodes : ∀ n ∈ s.nodes, n.Printable
  distinct : ∀ {t u : Temp}, .exp (.temp t) ∈ s.nodes → .exp (.temp u) ∈ s.nodes →
    t.isFramePointer = false → u.isFramePointer = false → t.name = u.name → t = u

/-- **Printing and reading is lossless up to normal form.**

* Every printable tree is read back from its text, in any session, in normal form: every
  sequence, also inside an expression, is the sequence of the normal forms of its plain
  statements, without those that only evaluate a constant. Labels are the same, the frame
  pointer is itself, and other temps are new ones of the same names, different ones for
  different temps.
* Whatever tree is read from a text, its own text can be read in any session, and the
  tree that is read then prints as the same text. -/
theorem print_lossless : (∀ {s : Stm}, s.Printable → ∀ session, ∃ ρ temps session',
      Yields (readStm s.print) session (s.normal.mapTemps ρ, temps) session' ∧
      session.Continues session' ∧ s.Renews ρ session session' ∧
      ∀ {t u : Temp}, .exp (.temp t) ∈ s.nodes → .exp (.temp u) ∈ s.nodes →
        t.isFramePointer = false → u.isFramePointer = false → ρ t = ρ u → t = u) ∧
    ∀ {text : String} {s : Stm} {temps : Table} {session session' : Session},
      Yields (readStm text) session (s, temps) session' → ∀ other, ∃ s' temps' other',
        Yields (readStm s.print) other (s', temps') other' ∧ s'.print = s.print := by
  refine ⟨fun {s} h session => ?_, fun {text s temps session session'} h other => ?_⟩
  · obtain ⟨ρ, temps, session', hread, hcontinues, hrenews⟩ := exists_readStm_print h.nodes session
    refine ⟨ρ, temps, session', hread, hcontinues, hrenews, fun ht hu hfp hfp' heq => ?_⟩
    have hkind := (hrenews.name ht hfp).symm.trans (heq ▸ hrenews.name hu hfp')
    exact h.distinct ht hu hfp hfp' (Temp.Kind.plain.inj hkind)
  · obtain ⟨r', hreads, -⟩ := yields_readStm_iff.mp h
    obtain ⟨hleads, hall⟩ := hreads.leads (Reader.inOrder_ofText text session)
    have hprintable : ∀ n ∈ s.nodes, n.Printable := fun n hn =>
      Node.printable_of_readBy hleads.inOrder (hall n hn)
    obtain ⟨ρ, temps', other', hread, -, hrenews⟩ := exists_readStm_print hprintable other
    refine ⟨_, temps', other', hread, print_normal fun n hn => ?_⟩
    have hn' : Node.ReadBy r' n := hall n hn
    cases n with
    | exp e =>
      cases e with
      | temp t => exact hrenews.print hn
      | const | name | binop | not | mem | call | eseq => trivial
    | stm s =>
      cases s with
      | seq => exact hn'
      | move | exp | jump | cjump | label => trivial

/-- A loop that counts down, with sequences that nest to the left, a statement that does
nothing, and a statement inside an expression. -/
def nestedLoop : Stm := let n : Temp := ⟨9, .plain "n"⟩
  .seq (.seq (.label ⟨"test"⟩) (.seq (.exp (.const 0)) (.move (.temp n) (.eseq
    (.seq (.exp (.const 1)) (.move (.mem (.temp .framePointer)) (.const (-1))))
    (.binop .minus (.temp n) (.const 1)))))) (.cjump .lt (.const 0) (.temp n) ⟨"test"⟩)

theorem print_lossless_nestedLoop : nestedLoop.Printable ∧ ∃ ρ temps session',
    Yields (readStm nestedLoop.print) {} (nestedLoop.normal.mapTemps ρ, temps) session' ∧
    nestedLoop.Renews ρ {} session' ∧ ∃ s' temps' session'',
      Yields (readStm (nestedLoop.normal.mapTemps ρ).print) session' (s', temps') session'' ∧
      s'.print = (nestedLoop.normal.mapTemps ρ).print := by
  have hprintable : nestedLoop.Printable := by
    refine ⟨?_, ?_⟩
    · simp only [nestedLoop, Stm.nodes, Exp.nodes, cons_append, nil_append,
        forall_mem_cons, Node.Printable, not_mem_nil, false_implies, implies_true]
      decide +kernel
    · intro t u ht hu hfp hfp' _
      have hn {t : Temp} (ht : .exp (.temp t) ∈ nestedLoop.nodes) (hfp : t.isFramePointer = false) :
          t = ⟨9, .plain "n"⟩ := by
        simp only [nestedLoop, Stm.nodes, Exp.nodes, cons_append, nil_append,
          mem_cons, reduceCtorEq, Node.exp.injEq, Exp.temp.injEq, not_mem_nil, or_false,
          false_or] at ht
        obtain rfl | rfl | rfl | rfl := ht
        · rfl
        · cases hfp
        · rfl
        · rfl
      rw [hn ht hfp, hn hu hfp']
  obtain ⟨ρ, temps, session', hread, -, hrenews, -⟩ := print_lossless.1 hprintable {}
  exact ⟨hprintable, ρ, temps, session', hread, hrenews, print_lossless.2 hread session'⟩

end Stm

end TreeBackend
