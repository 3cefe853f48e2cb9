import TreeBackend.Proofs.WrittenForms

/-!
# What the reader accepts

The reader accepts a text if and only if its parentheses and atoms are those of
a written form: one statement for `readStm`, a row of methods for `readMethods`.
In one direction, whatever the rules of `Reader.Reads` read stands in the text as a
form, and is the tree that the form denotes (`Reader.Reads.written`); in the other,
a form can always be read (`StmForm.exists_reads`). No two forms have the same
parentheses and atoms, so that there is one form to speak of.

Along the way the reader keeps its table of temps: a name is entered when it is met
first, with the next temp of the session (`Reader.Passes`). A method starts with an
empty table, and so no two methods share a temp.
-/

namespace TreeBackend

open List

namespace Text

namespace Reader

/-! ## What is passed -/

/-- From one reader to another, a row of parentheses and atoms is **passed**, in which
names of temps are met. Names that are new are entered in the table, with the next temps
of the session. -/
structure Passes (sorts : List Token.Sort) (names : List String) (r r' : Reader) : Prop where
  sorts : r.rest.map Token.sort = sorts ++ r'.rest.map Token.sort
  names : r'.temps.map Prod.fst = names.foldl mention (r.temps.map Prod.fst)
  temps : ∃ new : Table, r'.temps = r.temps ++ new ∧
    new.map (fun entry => entry.2.index) = List.range' r.session.tempCount new.length ∧
    (∀ entry ∈ new, entry.2.kind = .plain entry.1) ∧
    r'.session.tempCount = r.session.tempCount + new.length

variable {r r₁ r₂ r' : Reader} {sorts sorts' : List Token.Sort} {names names' : List String}
  {keyword : String}

namespace Passes

theorem grows (h : r.Passes sorts names r') : r.temps <+: r'.temps := by
  obtain ⟨new, heq, -⟩ := h.temps
  exact ⟨new, heq.symm⟩

/-- **One row after the other.** -/
theorem trans (h : r.Passes sorts names r₁) (h' : r₁.Passes sorts' names' r') :
    r.Passes (sorts ++ sorts') (names ++ names') r' where
  sorts := by rw [h.sorts, h'.sorts, append_assoc]
  names := by rw [h'.names, h.names, foldl_append]
  temps := by
    obtain ⟨new, htemps, hids, hkinds, hcount⟩ := h.temps
    obtain ⟨new', htemps', hids', hkinds', hcount'⟩ := h'.temps
    refine ⟨new ++ new', by rw [htemps', htemps, append_assoc], ?_,
      forall_mem_append.mpr ⟨hkinds, hkinds'⟩, ?_⟩
    · rw [map_append, hids, hids', hcount, length_append, List.range'_append_1]
    · rw [hcount', hcount, length_append, Nat.add_assoc]

/-- Where neither the table nor the number of temps changes. -/
theorem of_eq (hsorts : r.rest.map Token.sort = sorts ++ r'.rest.map Token.sort)
    (htemps : r'.temps = r.temps) (hcount : r'.session.tempCount = r.session.tempCount) :
    r.Passes sorts [] r' :=
  ⟨hsorts, congrArg _ htemps, [], by simp [htemps], rfl, forall_mem_nil _, hcount⟩

end Passes

theorem Takes.passes {sort : Token.Sort} (h : r.Takes sort r') : r.Passes [sort] [] r' := by
  obtain ⟨p, rest, hrest, rfl⟩ := h
  exact .of_eq (by rw [hrest]; rfl) rfl rfl

theorem Heads.passes (h : r.Heads keyword r') : r.Passes [.opening, .atom keyword] [] r' := by
  obtain ⟨u, hopen, hatom⟩ := h
  exact hopen.passes.trans hatom.passes

theorem tempCount_namedLabel (name : String) (s : Session) :
    ((Session.namedLabel name).run s).2.tempCount = s.tempCount := by
  rw [Session.run_namedLabel]
  split <;> rfl

theorem TakesLabel.passes {l : Label} (h : r.TakesLabel l r') : r.Passes [.atom l.name] [] r' := by
  obtain ⟨u, hatom, rfl⟩ := h
  have hlabel : Passes [] [] u
      { u with session := ((Session.namedLabel l.name).run u.session).2 } :=
    .of_eq rfl rfl (tempCount_namedLabel l.name u.session)
  exact hatom.passes.trans hlabel

/-- A keyword, what stands after it, and the parenthesis that closes the form. -/
theorem Passes.form (head : r.Heads keyword r₁) (body : r₁.Passes sorts names r₂)
    (close : r₂.Takes .closing r') : r.Passes (formSorts keyword sorts) names r' := by
  have h := head.passes.trans (body.trans close.passes)
  rwa [nil_append, append_nil] at h

/-- **A name** is passed: from then on it stands for a temp, however the table grows. -/
theorem passes_of_temp {name : String} {t : Temp} (h : Yields (temp name) r t r') :
    r.Passes [] (if name = "fp" then [] else [name]) r' ∧
      ∀ table, r'.temps <+: table → standsFor table name = t := by
  unfold standsFor
  obtain ⟨rfl, rfl, rfl⟩ | ⟨hfp, hlookup, rfl⟩ | ⟨hfp, hlookup, rfl, rfl⟩ := yields_temp.mp h
  · exact ⟨.of_eq rfl rfl rfl, fun table _ => rfl⟩
  · rw [if_neg hfp]
    have hmem : name ∈ r'.temps.map Prod.fst := by
      obtain ⟨l₁, l₂, heq, -⟩ := lookup_eq_some_iff.mp hlookup
      rw [heq]
      simp
    refine ⟨⟨rfl, ?_, [], by simp, rfl, forall_mem_nil _, rfl⟩, fun table htable => ?_⟩
    · rw [foldl_cons, foldl_nil, mention, if_pos hmem]
    · rw [if_neg hfp, lookup_mono htable hlookup, Option.getD_some]
  · rw [if_neg hfp]
    have hnew : name ∉ r.temps.map Prod.fst := by
      rw [lookup_eq_none_iff] at hlookup
      intro hmem
      obtain ⟨entry, hentry, rfl⟩ := mem_map.mp hmem
      simpa using hlookup entry hentry
    refine ⟨⟨rfl, ?_, [(name, _)], rfl, rfl, forall_mem_singleton.mpr rfl, rfl⟩,
      fun table htable => ?_⟩
    · rw [foldl_cons, foldl_nil, mention, if_neg hnew, map_append]
      rfl
    · let new : Temp := ⟨r.session.tempCount, .plain name⟩
      have hentry : (r.temps ++ [(name, new)]).lookup name = some new := by
        rw [lookup_append, hlookup]
        simp
      rw [if_neg hfp, lookup_mono htable hentry, Option.getD_some]

/-! ## What is read is written -/

/-- What is read **stands as a form** between two readers, and is the tree that the form
denotes, with the table reached or any table that it grows into. -/
def Written (r r' : Reader) : Item → Prop
  | .stm s => ∃ form : StmForm, r.Passes form.sorts form.names r' ∧
      ∀ table, r'.temps <+: table → form.tree table = s
  | .stms l => ∃ forms : List StmForm,
      r.Passes (StmForm.sortsAll forms) (StmForm.namesAll forms) r' ∧
      ∀ table, r'.temps <+: table → StmForm.trees table forms = l
  | .exp e => ∃ form : ExpForm, r.Passes form.sorts form.names r' ∧
      ∀ table, r'.temps <+: table → form.tree table = e
  | .exps l => ∃ forms : List ExpForm,
      r.Passes (ExpForm.sortsAll forms) (ExpForm.namesAll forms) r' ∧
      ∀ table, r'.temps <+: table → ExpForm.trees table forms = l

/-- **Whatever is read is written.** -/
theorem Reads.written {item : Item} (h : r.Reads item r') : r.Written r' item := by
  -- what is read later only adds temps to the table, so the trees stay as they are
  induction h with
  | seq head _ close ih =>
    obtain ⟨forms, hbody, htree⟩ := ih
    exact ⟨.seq forms, .form head hbody close, fun table htable =>
      congrArg Stm.seqAll (htree table (close.passes.grows.trans htable))⟩
  | move head _ _ close ih ih' =>
    obtain ⟨dst, hdst, hdtree⟩ := ih
    obtain ⟨src, hsrc, hstree⟩ := ih'
    refine ⟨.move dst src, .form head (hdst.trans hsrc) close, fun table htable => ?_⟩
    have htable := close.passes.grows.trans htable
    rw [StmForm.tree, hdtree table (hsrc.grows.trans htable), hstree table htable]
  | expStm head _ close ih =>
    obtain ⟨form, hbody, htree⟩ := ih
    exact ⟨.exp form, .form head hbody close, fun table htable =>
      congrArg Stm.exp (htree table (close.passes.grows.trans htable))⟩
  | jump head target close => exact ⟨.jump _, .form head target.passes close, fun _ _ => rfl⟩
  | cjump head relation _ _ target close ih ih' =>
    obtain ⟨left, hleft, hltree⟩ := ih
    obtain ⟨right, hright, hrtree⟩ := ih'
    have hbody := relation.passes.trans (hleft.trans (hright.trans target.passes))
    simp only [append_nil, nil_append] at hbody
    refine ⟨.cjump _ left right _, .form head hbody close, fun table htable => ?_⟩
    have htable := target.passes.grows.trans (close.passes.grows.trans htable)
    rw [StmForm.tree, hltree table (hright.grows.trans htable), hrtree table htable]
  | label head place close => exact ⟨.label _, .form head place.passes close, fun _ _ => rfl⟩
  | noStms | noExps => exact ⟨[], .of_eq rfl rfl rfl, fun _ _ => rfl⟩
  | moreStms _ _ ih ih' =>
    obtain ⟨form, hform, htree⟩ := ih
    obtain ⟨forms, hforms, htrees⟩ := ih'
    refine ⟨form :: forms, hform.trans hforms, fun table htable => ?_⟩
    rw [StmForm.trees, htree table (hforms.grows.trans htable), htrees table htable]
  | framePointer name => exact ⟨.framePointer, name.passes, fun _ _ => rfl⟩
  | numeral atom value =>
    obtain ⟨n, rfl, rfl⟩ := Numeral.ofNumeral?_eq_some_iff.mp value
    exact ⟨.numeral n, atom.passes, fun _ _ => rfl⟩
  | const head atom value close =>
    obtain ⟨n, rfl, rfl⟩ := Numeral.ofNumeral?_eq_some_iff.mp value
    exact ⟨.const n, .form head atom.passes close, fun _ _ => rfl⟩
  | name head place close => exact ⟨.name _, .form head place.passes close, fun _ _ => rfl⟩
  | temp head atom meaning close =>
    obtain ⟨hname, hmeaning⟩ := passes_of_temp meaning
    exact ⟨.temp _, .form head (atom.passes.trans hname) close, fun table htable =>
      congrArg Exp.temp (hmeaning table (close.passes.grows.trans htable))⟩
  | binop head operator _ _ close ih ih' =>
    obtain ⟨left, hleft, hltree⟩ := ih
    obtain ⟨right, hright, hrtree⟩ := ih'
    refine ⟨.binop _ left right, .form head (operator.passes.trans (hleft.trans hright)) close,
      fun table htable => ?_⟩
    have htable := close.passes.grows.trans htable
    rw [ExpForm.tree, hltree table (hright.grows.trans htable), hrtree table htable]
  | not head _ close ih =>
    obtain ⟨form, hbody, htree⟩ := ih
    exact ⟨.not form, .form head hbody close, fun table htable =>
      congrArg Exp.not (htree table (close.passes.grows.trans htable))⟩
  | mem head _ close ih =>
    obtain ⟨form, hbody, htree⟩ := ih
    exact ⟨.mem form, .form head hbody close, fun table htable =>
      congrArg Exp.mem (htree table (close.passes.grows.trans htable))⟩
  | call head _ _ close ih ih' =>
    obtain ⟨f, hf, hftree⟩ := ih
    obtain ⟨args, hargs, htrees⟩ := ih'
    refine ⟨.call f args, .form head (hf.trans hargs) close, fun table htable => ?_⟩
    have htable := close.passes.grows.trans htable
    rw [ExpForm.tree, hftree table (hargs.grows.trans htable), htrees table htable]
  | eseq head _ _ close ih ih' =>
    obtain ⟨effect, heffect, hstree⟩ := ih
    obtain ⟨value, hvalue, hetree⟩ := ih'
    refine ⟨.eseq effect value, .form head (heffect.trans hvalue) close, fun table htable => ?_⟩
    have htable := close.passes.grows.trans htable
    rw [ExpForm.tree, hstree table (hvalue.grows.trans htable), hetree table htable]
  | moreExps _ _ ih ih' =>
    obtain ⟨form, hform, htree⟩ := ih
    obtain ⟨forms, hforms, htrees⟩ := ih'
    refine ⟨form :: forms, hform.trans hforms, fun table htable => ?_⟩
    rw [ExpForm.trees, htree table (hforms.grows.trans htable), htrees table htable]

/-! ## What is written is read -/

theorem exists_takes {sort : Token.Sort} {more : List Token.Sort}
    (h : r.rest.map Token.sort = sort :: more) :
    ∃ r', r.Takes sort r' ∧ r'.rest.map Token.sort = more := by
  obtain ⟨⟨_, p⟩, rest, hrest, rfl, rfl⟩ := map_eq_cons_iff.mp h
  exact ⟨{ r with rest }, ⟨p, rest, hrest, rfl⟩, rfl⟩

theorem exists_heads {body more : List Token.Sort}
    (h : r.rest.map Token.sort = formSorts keyword body ++ more) :
    ∃ r', r.Heads keyword r' ∧ r'.rest.map Token.sort = body ++ .closing :: more := by
  obtain ⟨u, hopen, hu⟩ := exists_takes h
  obtain ⟨r', hatom, hr'⟩ := exists_takes hu
  exact ⟨r', ⟨u, hopen, hatom⟩, hr'.trans (append_assoc ..)⟩

theorem exists_takesLabel {name : String} {more : List Token.Sort}
    (h : r.rest.map Token.sort = .atom name :: more) :
    ∃ r', r.TakesLabel ⟨name⟩ r' ∧ r'.rest.map Token.sort = more := by
  obtain ⟨u, hatom, hu⟩ := exists_takes h
  exact ⟨_, ⟨u, hatom, rfl⟩, hu⟩

/-- Every name stands for something. -/
theorem exists_temp (name : String) (r : Reader) : ∃ t r', Yields (temp name) r t r' := by
  by_cases hfp : name = "fp"
  · exact ⟨_, _, yields_temp.mpr (.inl ⟨hfp, rfl, rfl⟩)⟩
  · cases hlookup : r.temps.lookup name with
    | some t => exact ⟨t, _, yields_temp.mpr (.inr (.inl ⟨hfp, hlookup, rfl⟩))⟩
    | none => exact ⟨_, _, yields_temp.mpr (.inr (.inr ⟨hfp, hlookup, rfl, rfl⟩))⟩

end Reader

open Reader

mutual

/-- **An expression that is written is read**, whatever follows it. -/
theorem ExpForm.exists_reads (e : ExpForm) {r : Reader} {more : List Token.Sort}
    (h : r.rest.map Token.sort = e.sorts ++ more) :
    ∃ tree r', r.Reads (.exp tree) r' ∧ r'.rest.map Token.sort = more := by
  cases e with
  | framePointer =>
    obtain ⟨r₁, hatom, h₁⟩ := exists_takes h
    exact ⟨_, r₁, .framePointer hatom, h₁⟩
  | numeral n =>
    obtain ⟨r₁, hatom, h₁⟩ := exists_takes h
    exact ⟨_, r₁, .numeral hatom n.ofNumeral?_text, h₁⟩
  | const n =>
    obtain ⟨r₁, head, h₁⟩ := exists_heads h
    obtain ⟨r₂, hatom, h₂⟩ := exists_takes h₁
    obtain ⟨r₃, hclose, h₃⟩ := exists_takes h₂
    exact ⟨_, r₃, .const head hatom n.ofNumeral?_text hclose, h₃⟩
  | name l =>
    obtain ⟨r₁, head, h₁⟩ := exists_heads h
    obtain ⟨r₂, hlabel, h₂⟩ := exists_takesLabel h₁
    obtain ⟨r₃, hclose, h₃⟩ := exists_takes h₂
    exact ⟨_, r₃, .name head hlabel hclose, h₃⟩
  | temp x =>
    obtain ⟨r₁, head, h₁⟩ := exists_heads h
    obtain ⟨r₂, hatom, h₂⟩ := exists_takes h₁
    obtain ⟨t, r₃, htemp⟩ := exists_temp x r₂
    obtain ⟨r₄, hclose, h₄⟩ := exists_takes ((congrArg _ (rest_of_temp htemp)).trans h₂)
    exact ⟨_, r₄, .temp head hatom htemp hclose, h₄⟩
  | binop op left right =>
    obtain ⟨r₁, head, h₁⟩ := exists_heads h
    obtain ⟨r₂, hop, h₂⟩ := exists_takes h₁
    obtain ⟨_, r₃, hleft, h₃⟩ := left.exists_reads (h₂.trans (append_assoc ..))
    obtain ⟨_, r₄, hright, h₄⟩ := right.exists_reads h₃
    obtain ⟨r₅, hclose, h₅⟩ := exists_takes h₄
    exact ⟨_, r₅, .binop head hop hleft hright hclose, h₅⟩
  | not e =>
    obtain ⟨r₁, head, h₁⟩ := exists_heads h
    obtain ⟨_, r₂, hvalue, h₂⟩ := e.exists_reads h₁
    obtain ⟨r₃, hclose, h₃⟩ := exists_takes h₂
    exact ⟨_, r₃, .not head hvalue hclose, h₃⟩
  | mem e =>
    obtain ⟨r₁, head, h₁⟩ := exists_heads h
    obtain ⟨_, r₂, haddress, h₂⟩ := e.exists_reads h₁
    obtain ⟨r₃, hclose, h₃⟩ := exists_takes h₂
    exact ⟨_, r₃, .mem head haddress hclose, h₃⟩
  | call f args =>
    obtain ⟨r₁, head, h₁⟩ := exists_heads h
    obtain ⟨_, r₂, hf, h₂⟩ := f.exists_reads (h₁.trans (append_assoc ..))
    obtain ⟨_, r₃, hargs, h₃⟩ := ExpForm.exists_readsAll args h₂
    obtain ⟨r₄, hclose, h₄⟩ := exists_takes h₃
    exact ⟨_, r₄, .call head hf hargs hclose, h₄⟩
  | eseq s e =>
    obtain ⟨r₁, head, h₁⟩ := exists_heads h
    obtain ⟨_, r₂, heffect, h₂⟩ := s.exists_reads (h₁.trans (append_assoc ..))
    obtain ⟨_, r₃, hvalue, h₃⟩ := e.exists_reads h₂
    obtain ⟨r₄, hclose, h₄⟩ := exists_takes h₃
    exact ⟨_, r₄, .eseq head heffect hvalue hclose, h₄⟩
termination_by structural e

/-- Expressions are read up to the parenthesis that closes. -/
theorem ExpForm.exists_readsAll (es : List ExpForm) {r : Reader} {more : List Token.Sort}
    (h : r.rest.map Token.sort = ExpForm.sortsAll es ++ .closing :: more) :
    ∃ trees r', r.Reads (.exps trees) r' ∧ r'.rest.map Token.sort = .closing :: more := by
  cases es with
  | nil =>
    refine ⟨[], r, .noExps (.inr ?_), h⟩
    rw [← List.head?_map, h]
    rfl
  | cons e es =>
    obtain ⟨_, r₁, hfirst, h₁⟩ := e.exists_reads (h.trans (append_assoc ..))
    obtain ⟨_, r₂, hrest, h₂⟩ := ExpForm.exists_readsAll es h₁
    exact ⟨_, r₂, .moreExps hfirst hrest, h₂⟩
termination_by structural es

/-- **A statement that is written is read**, whatever follows it. -/
theorem StmForm.exists_reads (s : StmForm) {r : Reader} {more : List Token.Sort}
    (h : r.rest.map Token.sort = s.sorts ++ more) :
    ∃ tree r', r.Reads (.stm tree) r' ∧ r'.rest.map Token.sort = more := by
  cases s with
  | seq parts =>
    obtain ⟨r₁, head, h₁⟩ := exists_heads h
    obtain ⟨_, r₂, hparts, h₂⟩ := StmForm.exists_readsAll parts h₁
    obtain ⟨r₃, hclose, h₃⟩ := exists_takes h₂
    exact ⟨_, r₃, .seq head hparts hclose, h₃⟩
  | move dst src =>
    obtain ⟨r₁, head, h₁⟩ := exists_heads h
    obtain ⟨_, r₂, hdst, h₂⟩ := dst.exists_reads (h₁.trans (append_assoc ..))
    obtain ⟨_, r₃, hsrc, h₃⟩ := src.exists_reads h₂
    obtain ⟨r₄, hclose, h₄⟩ := exists_takes h₃
    exact ⟨_, r₄, .move head hdst hsrc hclose, h₄⟩
  | exp e =>
    obtain ⟨r₁, head, h₁⟩ := exists_heads h
    obtain ⟨_, r₂, hvalue, h₂⟩ := e.exists_reads h₁
    obtain ⟨r₃, hclose, h₃⟩ := exists_takes h₂
    exact ⟨_, r₃, .expStm head hvalue hclose, h₃⟩
  | jump l =>
    obtain ⟨r₁, head, h₁⟩ := exists_heads h
    obtain ⟨r₂, hlabel, h₂⟩ := exists_takesLabel h₁
    obtain ⟨r₃, hclose, h₃⟩ := exists_takes h₂
    exact ⟨_, r₃, .jump head hlabel hclose, h₃⟩
  | cjump rel left right target =>
    obtain ⟨r₁, head, h₁⟩ := exists_heads h
    obtain ⟨r₂, hrel, h₂⟩ := exists_takes h₁
    obtain ⟨_, r₃, hleft, h₃⟩ := left.exists_reads (h₂.trans (append_assoc ..))
    obtain ⟨_, r₄, hright, h₄⟩ := right.exists_reads (h₃.trans (append_assoc ..))
    obtain ⟨r₅, hlabel, h₅⟩ := exists_takesLabel h₄
    obtain ⟨r₆, hclose, h₆⟩ := exists_takes h₅
    exact ⟨_, r₆, .cjump head hrel hleft hright hlabel hclose, h₆⟩
  | label l =>
    obtain ⟨r₁, head, h₁⟩ := exists_heads h
    obtain ⟨r₂, hlabel, h₂⟩ := exists_takesLabel h₁
    obtain ⟨r₃, hclose, h₃⟩ := exists_takes h₂
    exact ⟨_, r₃, .label head hlabel hclose, h₃⟩
termination_by structural s

/-- Statements are read up to the parenthesis that closes. -/
theorem StmForm.exists_readsAll (stms : List StmForm) {r : Reader} {more : List Token.Sort}
    (h : r.rest.map Token.sort = StmForm.sortsAll stms ++ .closing :: more) :
    ∃ trees r', r.Reads (.stms trees) r' ∧ r'.rest.map Token.sort = .closing :: more := by
  cases stms with
  | nil =>
    refine ⟨[], r, .noStms ?_, h⟩
    rw [← List.head?_map, h]
    nofun
  | cons s stms =>
    obtain ⟨_, r₁, hfirst, h₁⟩ := s.exists_reads (h.trans (append_assoc ..))
    obtain ⟨_, r₂, hrest, h₂⟩ := StmForm.exists_readsAll stms h₁
    exact ⟨_, r₂, .moreStms hfirst hrest, h₂⟩
termination_by structural stms

end

/-- Methods that are written are read. -/
theorem MethodForm.exists_readsMethods (forms : List MethodForm) {r : Reader}
    (h : r.rest.map Token.sort = forms.flatMap MethodForm.sorts) :
    ∃ ms r', r.ReadsMethods ms r' := by
  induction forms generalizing r with
  | nil => exact ⟨[], r, .nil (map_eq_nil_iff.mp h)⟩
  | cons form forms ih =>
    obtain ⟨r₁, head, h₁⟩ := exists_heads h
    obtain ⟨r₂, hname, h₂⟩ := exists_takes h₁
    obtain ⟨body, r₃, hbody, h₃⟩ := form.body.exists_reads (r := { r₂ with temps := [] }) h₂
    obtain ⟨r₄, hclose, h₄⟩ := exists_takes h₃
    obtain ⟨ms, r₅, hms⟩ := ih h₄
    exact ⟨⟨form.name, body, r₄.temps⟩ :: ms, r₅,
      .cons ⟨r₁, r₂, r₃, head, hname, hbody, hclose, rfl⟩ hms⟩

/-! ## Texts -/

/-- The form **denotes** the tree with a table: the table has the names of the form, each
once, where it is mentioned first, with a temp of that name, and the tree is the form with
these temps. -/
structure StmForm.Denotes (form : StmForm) (s : Stm) (table : Table) : Prop where
  names : table.map Prod.fst = firstMentions form.names
  plain : ∀ entry ∈ table, entry.2.kind = .plain entry.1
  tree : form.tree table = s

/-- The numbers of the temps in a table. -/
def Table.ids (table : Table) : List Nat := table.map fun entry => entry.2.index

namespace Reader

variable {r r' : Reader}

/-- What is read with an empty table has a form, and all temps are new. -/
theorem Reads.exists_denotes {s : Stm} (h : r.Reads (.stm s) r') (htemps : r.temps = []) :
    ∃ form : StmForm, r.rest.map Token.sort = form.sorts ++ r'.rest.map Token.sort ∧
      form.Denotes s r'.temps ∧
      Table.ids r'.temps = List.range' r.session.tempCount r'.temps.length ∧
      r'.session.tempCount = r.session.tempCount + r'.temps.length := by
  obtain ⟨form, hpasses, htree⟩ := h.written
  obtain ⟨new, hnew, hids, hkinds, hcount⟩ := hpasses.temps
  rw [htemps, nil_append] at hnew
  subst hnew
  refine ⟨form, hpasses.sorts, ⟨?_, hkinds, htree _ prefix_rfl⟩, hids, hcount⟩
  rw [hpasses.names, htemps]
  rfl

theorem ReadsMethod.exists_denotes {m : MethodText} (h : r.ReadsMethod m r') :
    ∃ form : MethodForm, r.rest.map Token.sort = form.sorts ++ r'.rest.map Token.sort ∧
      (m.name = form.name ∧ form.body.Denotes m.body m.temps) ∧
      Table.ids m.temps = List.range' r.session.tempCount m.temps.length ∧
      r'.session.tempCount = r.session.tempCount + m.temps.length := by
  obtain ⟨r₁, r₂, r₃, head, name, body, close, htemps⟩ := h
  obtain ⟨form, hsorts, hdenotes, hids, hcount⟩ := body.exists_denotes rfl
  have hhead := head.passes.trans name.passes
  have hclose : r₃.temps = r'.temps ∧ r'.session = r₃.session := by
    obtain ⟨p, rest, -, rfl⟩ := close
    exact ⟨rfl, rfl⟩
  have hsession : r₂.session = r.session := by
    obtain ⟨u, ⟨_, _, -, rfl⟩, _, _, -, rfl⟩ := head
    obtain ⟨_, _, -, rfl⟩ := name
    rfl
  rw [hclose.1, ← htemps] at hdenotes hids hcount
  rw [hsession] at hids hcount
  refine ⟨⟨m.name, form⟩, ?_, ⟨rfl, hdenotes⟩, hids, hclose.2 ▸ hcount⟩
  have hbody : r₂.rest.map Token.sort = form.sorts ++ r₃.rest.map Token.sort := hsorts
  rw [hhead.sorts, hbody, close.passes.sorts, MethodForm.sorts, formSorts]
  simp

/-- **Methods that are read are written**, and all of their temps are new. -/
theorem ReadsMethods.exists_denotes {ms : List MethodText} (h : r.ReadsMethods ms r') :
    ∃ forms : List MethodForm, r.rest.map Token.sort = forms.flatMap MethodForm.sorts ∧
      List.Forall₂ (fun form m => m.name = form.name ∧ form.body.Denotes m.body m.temps) forms ms ∧
      ∃ n, ms.flatMap (fun m => Table.ids m.temps) = List.range' r.session.tempCount n := by
  induction h with
  | nil last => exact ⟨[], by rw [last]; rfl, .nil, 0, rfl⟩
  | @cons r₀ r₁ r₂ m ms first _ ih =>
    obtain ⟨form, hsorts, hdenotes, hids, hcount⟩ := first.exists_denotes
    obtain ⟨forms, hrest, hall, n, hmore⟩ := ih
    refine ⟨form :: forms, by rw [hsorts, hrest, flatMap_cons], .cons hdenotes hall,
      m.temps.length + n, ?_⟩
    rw [flatMap_cons, hids, hmore, hcount, List.range'_append_1]

end Reader

section Texts

variable {text : String} {session session' : Session}

/-- A text that is read as a statement is written as one. -/
theorem exists_denotes_of_readStm {s : Stm} {table : Table}
    (h : Yields (readStm text) session (s, table) session') :
    ∃ form : StmForm, (tokens text).map Token.sort = form.sorts ∧ form.Denotes s table ∧
      ∃ n, Table.ids table = List.range' session.tempCount n := by
  obtain ⟨r', hreads, hempty, rfl, -⟩ := yields_readStm_iff.mp h
  obtain ⟨form, hsorts, hdenotes, hids, -⟩ := hreads.exists_denotes rfl
  rw [hempty, map_nil, append_nil] at hsorts
  exact ⟨form, hsorts, hdenotes, _, hids⟩

/-- A text that is read as methods is written as methods. -/
theorem exists_denotes_of_readMethods {ms : List MethodText}
    (h : Yields (readMethods text) session ms session') :
    ∃ forms : List MethodForm, (tokens text).map Token.sort = forms.flatMap MethodForm.sorts ∧
      List.Forall₂ (fun form m => m.name = form.name ∧ form.body.Denotes m.body m.temps) forms ms ∧
      ∃ n, ms.flatMap (fun m => Table.ids m.temps) = List.range' session.tempCount n := by
  obtain ⟨r', hreads, -⟩ := yields_readMethods_iff.mp h
  exact hreads.exists_denotes

/-- A statement that is written is read from its text. -/
theorem StmForm.exists_readStm (form : StmForm) (h : (tokens text).map Token.sort = form.sorts)
    (session : Session) :
    ∃ s table session', Yields (readStm text) session (s, table) session' := by
  obtain ⟨s, r', hreads, hrest⟩ := form.exists_reads (r := ofText text session)
    (h.trans (append_nil _).symm)
  exact ⟨s, _, _, yields_readStm_iff.mpr ⟨r', hreads, map_eq_nil_iff.mp hrest, rfl, rfl⟩⟩

/-- Numbers that are counted from the session's are different, and new. -/
theorem nodup_of_range' {ids : List Nat} {n : Nat} (h : ids = List.range' session.tempCount n) :
    ids.Nodup ∧ ∀ id ∈ ids, session.tempCount ≤ id := by
  subst h
  exact ⟨nodup_range', fun id hid => (mem_range'_1.mp hid).1⟩

end Texts

/-- **The reader accepts exactly its grammar.** Tokens are as the scanner splits the text.

* A text is read as a statement if and only if its tokens are those of a written
  statement, and it is read as methods if and only if they are those of written methods,
  one after the other.
* There is only one such form, and what is read is what it denotes: its trees, with one
  temp for each name in a method. The temps of different names, or of different methods,
  have different numbers, and all of them are new to the session. -/
theorem reads_iff_written (text : String) (session : Session) :
    ((∃ s table session', Yields (readStm text) session (s, table) session') ↔
      ∃ form : StmForm, (tokens text).map Token.sort = form.sorts) ∧
    ((∃ ms session', Yields (readMethods text) session ms session') ↔
      ∃ forms : List MethodForm, (tokens text).map Token.sort = forms.flatMap MethodForm.sorts) ∧
    (∀ s table session', Yields (readStm text) session (s, table) session' →
      ∃ form : StmForm, (∀ form' : StmForm,
          (tokens text).map Token.sort = form'.sorts ↔ form' = form) ∧
        form.Denotes s table ∧ (Table.ids table).Nodup ∧
        ∀ id ∈ Table.ids table, session.tempCount ≤ id) ∧
    ∀ ms session', Yields (readMethods text) session ms session' →
      ∃ forms : List MethodForm, (∀ forms' : List MethodForm,
          (tokens text).map Token.sort = forms'.flatMap MethodForm.sorts ↔ forms' = forms) ∧
        List.Forall₂ (fun form m => m.name = form.name ∧ form.body.Denotes m.body m.temps)
          forms ms ∧
        (ms.flatMap fun m => Table.ids m.temps).Nodup ∧
        ∀ id ∈ ms.flatMap fun m => Table.ids m.temps, session.tempCount ≤ id := by
  refine ⟨⟨?_, fun ⟨form, hsorts⟩ => form.exists_readStm hsorts session⟩, ⟨?_, ?_⟩, ?_, ?_⟩
  · rintro ⟨s, table, session', h⟩
    obtain ⟨form, hsorts, -⟩ := exists_denotes_of_readStm h
    exact ⟨form, hsorts⟩
  · rintro ⟨ms, session', h⟩
    obtain ⟨forms, hsorts, -⟩ := exists_denotes_of_readMethods h
    exact ⟨forms, hsorts⟩
  · rintro ⟨forms, hsorts⟩
    obtain ⟨ms, r', hreads⟩ :=
      MethodForm.exists_readsMethods forms (r := ofText text session) hsorts
    exact ⟨ms, _, yields_readMethods_iff.mpr ⟨r', hreads, rfl⟩⟩
  · intro s table session' h
    obtain ⟨form, hsorts, hdenotes, n, hids⟩ := exists_denotes_of_readStm h
    refine ⟨form, fun form' => ⟨fun hform' => ?_, fun heq => heq ▸ hsorts⟩, hdenotes,
      nodup_of_range' hids⟩
    exact (form'.eq_of_sorts form (congrArg (· ++ []) (hform'.symm.trans hsorts))).1
  · intro ms session' h
    obtain ⟨forms, hsorts, hdenote, n, hids⟩ := exists_denotes_of_readMethods h
    exact ⟨forms, fun forms' => ⟨fun hforms' => MethodForm.eq_of_sorts (hforms'.symm.trans hsorts),
      fun heq => heq ▸ hsorts⟩, hdenote, nodup_of_range' hids⟩

/-- Two methods with the same names in them, and a comment between them. -/
def twoMethods : String := "(method f (seq (exp 7) (move (temp a) +1)));(
(method g (exp (call (name f) fp (temp a))))"

theorem reads_iff_written_twoMethods : ∃ f g session',
    Yields (readMethods twoMethods) {} [f, g] session' ∧ ∃ form form' : MethodForm,
      (∀ forms : List MethodForm, (tokens twoMethods).map Token.sort =
        forms.flatMap MethodForm.sorts ↔ forms = [form, form']) ∧
      form.body.Denotes f.body f.temps ∧ form'.body.Denotes g.body g.temps ∧
      (Table.ids f.temps ++ Table.ids g.temps).Nodup := by
  obtain ⟨ms, session', h, hlength⟩ := exists_yields_of_any (x := readMethods twoMethods) (s := {})
    (p := fun ms => ms.length == 2) (by decide +kernel)
  obtain ⟨f, g, rfl⟩ := length_eq_two.mp (beq_iff_eq.mp hlength)
  obtain ⟨forms, hforms, hdenote, hnodup, -⟩ := (reads_iff_written twoMethods {}).2.2.2 _ _ h
  obtain _ | ⟨⟨-, hf⟩, _ | ⟨⟨-, hg⟩, hnil⟩⟩ := hdenote
  cases hnil
  exact ⟨f, g, session', h, _, _, hforms, hf, hg, by simpa using hnodup⟩

end Text

end TreeBackend
