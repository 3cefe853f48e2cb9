import TreeBackend.Proofs.WrittenForms

/-!
# What is still to come

A text is read from left to right, and at every token it is clear what is still to come: the rest
of the form that is open, the rest of the form around it, and so on outwards. An **agenda** is a
list of such parts (`Expected`), and a token either takes the agenda further (`Expected.after`) or
has no business there.

That is all there is to know. The rows that an agenda admits are said by forms alone
(`Expected.AdmitsAll`), and a token takes an agenda to one that admits what may follow the token
(`admitsAll_cons_iff`). Since there is always a way to go on, a row is the beginning of one that the
agenda admits as long as the agenda gets past it, and not a token longer (`viable_iff`).
-/

namespace TreeBackend

open List Option

namespace Text

/-- A part of a text that is **expected**. -/
inductive Expected where
  /-- A statement. -/
  | stm
  /-- A statement whose parenthesis is open. -/
  | stmHead
  /-- What is left of a sequence, up to the parenthesis that closes it. -/
  | stms
  /-- An expression. -/
  | exp
  /-- An expression whose parenthesis is open. -/
  | expHead
  /-- What is left of the arguments of a call, up to the parenthesis that closes it. -/
  | exps
  /-- A numeral. -/
  | numeral
  /-- Any name. -/
  | name
  /-- The name of a relation. -/
  | relation
  /-- The name of an operator. -/
  | operator
  /-- The parenthesis that closes a form. -/
  | closing
  /-- A method. -/
  | method
  /-- A method whose parenthesis is open. -/
  | methodHead
  /-- Methods, up to the end of the text. -/
  | methods
  deriving DecidableEq

theorem StmForm.sorts_eq_keyword (s : StmForm) :
    ∃ rest, s.sorts = .opening :: .atom s.kind.keyword :: rest := by
  cases s with
  | _ => exact ⟨_, rfl⟩

namespace Expected

/-! ## Agendas -/

/-- What is expected after the keyword of a statement. -/
def stmBody : Stm.Kind → List Expected
  | .seq => [stms]
  | .move => [exp, exp, closing]
  | .exp => [exp, closing]
  | .jump => [name, closing]
  | .cjump => [relation, exp, exp, name, closing]
  | .label => [name, closing]

/-- What is expected after the keyword of an expression. -/
def expBody : Exp.Kind → List Expected
  | .const => [numeral, closing]
  | .name => [name, closing]
  | .temp => [name, closing]
  | .binop => [operator, exp, exp, closing]
  | .not => [exp, closing]
  | .mem => [exp, closing]
  | .call => [exp, exps]
  | .eseq => [stm, exp, closing]

/-- Whether an atom is an expression by itself. -/
def isLeaf (text : String) : Bool := text = "fp" || (Word.ofNumeral? text).isSome

/-- What is expected in the place of a part when one token of it has been read. -/
def after : Expected → Token.Sort → Option (List Expected)
  | stm, .opening => some [stmHead]
  | stmHead, .atom keyword => (Stm.Kind.ofKeyword? keyword).map stmBody
  | stms, .opening => some [stmHead, stms]
  | stms, .closing => some []
  | exp, .opening => some [expHead]
  | exp, .atom text => if isLeaf text then some [] else none
  | expHead, .atom keyword => (Exp.Kind.ofKeyword? keyword).map expBody
  | exps, .opening => some [expHead, exps]
  | exps, .closing => some []
  | exps, .atom text => if isLeaf text then some [exps] else none
  | numeral, .atom text => (Word.ofNumeral? text).map fun _ => []
  | name, .atom _ => some []
  | relation, .atom text => (RelOp.ofName? text).map fun _ => []
  | operator, .atom text => (BinOp.ofName? text).map fun _ => []
  | closing, .closing => some []
  | method, .opening => some [methodHead]
  | methodHead, .atom keyword => if keyword = "method" then some [name, stm, closing] else none
  | methods, .opening => some [methodHead, methods]
  | _, _ => none

/-- What is left of an agenda when a row has been read. -/
def remaining : List Expected → List Token.Sort → Option (List Expected)
  | agenda, [] => some agenda
  | [], _ :: _ => none
  | x :: agenda, sort :: row => (x.after sort).bind fun body => remaining (body ++ agenda) row

theorem remaining_append (agenda : List Expected) (row more : List Token.Sort) :
    remaining agenda (row ++ more) = (remaining agenda row).bind (remaining · more) := by
  induction row generalizing agenda with
  | nil => rfl
  | cons sort row ih =>
    cases agenda with
    | nil => rfl
    | cons x agenda =>
      show (x.after sort).bind _ = ((x.after sort).bind _).bind _
      rw [bind_assoc]
      exact bind_congr fun body _ => ih (body ++ agenda)

/-! ## The rows of an agenda -/

/-- The rows that a part **admits**. -/
def Admits : Expected → List Token.Sort → Prop
  | stm, row => ∃ s : StmForm, s.sorts = row
  | stmHead, row => ∃ s : StmForm, s.sorts = .opening :: row
  | stms, row => ∃ parts : List StmForm, StmForm.sortsAll parts ++ [.closing] = row
  | exp, row => ∃ e : ExpForm, e.sorts = row
  | expHead, row => ∃ e : ExpForm, e.sorts = .opening :: row
  | exps, row => ∃ args : List ExpForm, ExpForm.sortsAll args ++ [.closing] = row
  | numeral, row => ∃ n : Numeral, row = [.atom n.text]
  | name, row => ∃ text, row = [.atom text]
  | relation, row => ∃ rel : RelOp, row = [.atom rel.name]
  | operator, row => ∃ op : BinOp, row = [.atom op.name]
  | closing, row => row = [.closing]
  | method, row => ∃ m : MethodForm, m.sorts = row
  | methodHead, row => ∃ m : MethodForm, m.sorts = .opening :: row
  | methods, row => ∃ ms : List MethodForm, ms.flatMap MethodForm.sorts = row

/-- The rows that an agenda admits: those of its parts, one after the other. Nothing comes after
methods, which go on to the end. -/
def AdmitsAll : List Expected → List Token.Sort → Prop
  | [], row => row = []
  | methods :: _, row => methods.Admits row
  | x :: agenda, row => ∃ first rest, first ++ rest = row ∧ x.Admits first ∧ AdmitsAll agenda rest

variable {x : Expected} {agenda body : List Expected} {sort : Token.Sort}
  {row first rest : List Token.Sort}

theorem admitsAll_cons (hx : x ≠ methods) : AdmitsAll (x :: agenda) row ↔
      ∃ first rest, first ++ rest = row ∧ x.Admits first ∧ AdmitsAll agenda rest := by
  cases x with
  | methods => exact absurd rfl hx
  | _ => exact Iff.rfl

theorem Admits.all (h : x.Admits first) (hx : x ≠ methods) (hrest : AdmitsAll agenda rest) :
    AdmitsAll (x :: agenda) (first ++ rest) :=
  (admitsAll_cons hx).mpr ⟨first, rest, rfl, h, hrest⟩

theorem admitsAll_singleton : AdmitsAll [x] row ↔ x.Admits row := by
  by_cases hx : x = methods
  · rw [hx]
    exact Iff.rfl
  · rw [admitsAll_cons hx]
    constructor
    · rintro ⟨first, rest, rfl, h, rfl⟩
      rwa [append_nil]
    · exact fun h => ⟨row, [], append_nil row, h, rfl⟩

theorem admitsAll_append (hbody : methods ∉ body) : AdmitsAll (body ++ agenda) row ↔
      ∃ first rest, first ++ rest = row ∧ AdmitsAll body first ∧ AdmitsAll agenda rest := by
  induction body generalizing row with
  | nil =>
    constructor
    · exact fun h => ⟨[], row, rfl, rfl, h⟩
    · rintro ⟨_, rest, rfl, rfl, h⟩
      exact h
  | cons x body ih =>
    obtain ⟨hx, hbody⟩ := ne_and_not_mem_of_not_mem_cons hbody
    rw [cons_append, admitsAll_cons hx.symm]
    constructor
    · rintro ⟨first, _, rfl, h, hrest⟩
      obtain ⟨second, rest, rfl, h', hrest⟩ := (ih hbody).mp hrest
      exact ⟨first ++ second, rest, append_assoc .., h.all hx.symm h', hrest⟩
    · rintro ⟨_, rest, rfl, h, hrest⟩
      obtain ⟨first, second, rfl, h, h'⟩ := (admitsAll_cons hx.symm).mp h
      exact ⟨first, second ++ rest, (append_assoc ..).symm, h,
        (ih hbody).mpr ⟨second, rest, rfl, h', hrest⟩⟩

theorem admitsAll_closing : AdmitsAll [closing] [.closing] := admitsAll_singleton.mpr rfl

/-! ## Forms and their keywords -/

/-- The statements that have a keyword are those that the agenda of the keyword admits. -/
theorem exists_stm_iff {kind : Stm.Kind} :
    (∃ s : StmForm, s.sorts = .opening :: .atom kind.keyword :: row) ↔
      AdmitsAll (stmBody kind) row := by
  constructor
  · rintro ⟨s, hs⟩
    -- The keyword tells the kind, so the form and the agenda go together.
    have hkind : some s.kind = some kind := by
      rw [← s.stmKind?_sorts [], append_nil, hs]
      exact Stm.Kind.ofKeyword?_keyword kind
    cases hkind
    cases s with
    | seq parts =>
      cases hs
      exact admitsAll_singleton.mpr ⟨parts, rfl⟩
    | move dst src =>
      cases hs
      rw [append_assoc]
      exact Admits.all ⟨dst, rfl⟩ (by decide) (Admits.all ⟨src, rfl⟩ (by decide) admitsAll_closing)
    | exp x | jump x | label x =>
      cases hs
      exact Admits.all ⟨x, rfl⟩ (by decide) admitsAll_closing
    | cjump rel left right target =>
      cases hs
      rw [cons_append, append_assoc, append_assoc, ← singleton_append]
      exact Admits.all ⟨rel, rfl⟩ (by decide) (Admits.all ⟨left, rfl⟩ (by decide)
        (Admits.all ⟨right, rfl⟩ (by decide) (Admits.all ⟨target, rfl⟩ (by decide)
          admitsAll_closing)))
  · intro h
    cases kind with
    | seq =>
      obtain ⟨_, _, rfl, ⟨parts, rfl⟩, rfl⟩ := h
      exact ⟨.seq parts, by simp [StmForm.sorts, formSorts, Stm.Kind.keyword]⟩
    | move =>
      obtain ⟨_, _, rfl, ⟨dst, rfl⟩, _, _, rfl, ⟨src, rfl⟩, _, _, rfl, rfl, rfl⟩ := h
      exact ⟨.move dst src, by simp [StmForm.sorts, formSorts, Stm.Kind.keyword]⟩
    | exp =>
      obtain ⟨_, _, rfl, ⟨e, rfl⟩, _, _, rfl, rfl, rfl⟩ := h
      exact ⟨.exp e, rfl⟩
    | jump =>
      obtain ⟨_, _, rfl, ⟨l, rfl⟩, _, _, rfl, rfl, rfl⟩ := h
      exact ⟨.jump l, rfl⟩
    | cjump =>
      obtain ⟨_, _, rfl, ⟨rel, rfl⟩, _, _, rfl, ⟨left, rfl⟩, _, _, rfl, ⟨right, rfl⟩, _, _, rfl,
        ⟨target, rfl⟩, _, _, rfl, rfl, rfl⟩ := h
      exact ⟨.cjump rel left right target, by simp [StmForm.sorts, formSorts, Stm.Kind.keyword]⟩
    | label =>
      obtain ⟨_, _, rfl, ⟨l, rfl⟩, _, _, rfl, rfl, rfl⟩ := h
      exact ⟨.label l, rfl⟩

/-- So are the expressions that have a keyword. -/
theorem exists_exp_iff {kind : Exp.Kind} :
    (∃ e : ExpForm, e.sorts = .opening :: .atom kind.keyword :: row) ↔
      AdmitsAll (expBody kind) row := by
  constructor
  · rintro ⟨e, he⟩
    have hkind : e.kind? = some kind := by
      rw [← e.expKind?_sorts [], append_nil, he]
      exact Exp.Kind.ofKeyword?_keyword kind
    cases e with
    | framePointer | numeral => cases hkind
    | const x | name x | temp x | not x | mem x =>
      cases hkind
      cases he
      exact Admits.all ⟨x, rfl⟩ (by decide) admitsAll_closing
    | binop op left right =>
      cases hkind
      cases he
      rw [cons_append, append_assoc, ← singleton_append]
      exact Admits.all ⟨op, rfl⟩ (by decide) (Admits.all ⟨left, rfl⟩ (by decide)
        (Admits.all ⟨right, rfl⟩ (by decide) admitsAll_closing))
    | call f args =>
      cases hkind
      cases he
      rw [append_assoc]
      exact Admits.all ⟨f, rfl⟩ (by decide) (admitsAll_singleton.mpr ⟨args, rfl⟩)
    | eseq s e =>
      cases hkind
      cases he
      rw [append_assoc]
      exact Admits.all ⟨s, rfl⟩ (by decide) (Admits.all ⟨e, rfl⟩ (by decide) admitsAll_closing)
  · intro h
    cases kind with
    | const =>
      obtain ⟨_, _, rfl, ⟨n, rfl⟩, _, _, rfl, rfl, rfl⟩ := h
      exact ⟨.const n, rfl⟩
    | name =>
      obtain ⟨_, _, rfl, ⟨l, rfl⟩, _, _, rfl, rfl, rfl⟩ := h
      exact ⟨.name l, rfl⟩
    | temp =>
      obtain ⟨_, _, rfl, ⟨t, rfl⟩, _, _, rfl, rfl, rfl⟩ := h
      exact ⟨.temp t, rfl⟩
    | binop =>
      obtain ⟨_, _, rfl, ⟨op, rfl⟩, _, _, rfl, ⟨left, rfl⟩, _, _, rfl, ⟨right, rfl⟩, _, _, rfl, rfl,
        rfl⟩ := h
      exact ⟨.binop op left right, by simp [ExpForm.sorts, formSorts, Exp.Kind.keyword]⟩
    | not =>
      obtain ⟨_, _, rfl, ⟨e, rfl⟩, _, _, rfl, rfl, rfl⟩ := h
      exact ⟨.not e, rfl⟩
    | mem =>
      obtain ⟨_, _, rfl, ⟨e, rfl⟩, _, _, rfl, rfl, rfl⟩ := h
      exact ⟨.mem e, rfl⟩
    | call =>
      obtain ⟨_, _, rfl, ⟨f, rfl⟩, _, _, rfl, ⟨args, rfl⟩, rfl⟩ := h
      exact ⟨.call f args, by simp [ExpForm.sorts, formSorts, Exp.Kind.keyword]⟩
    | eseq =>
      obtain ⟨_, _, rfl, ⟨s, rfl⟩, _, _, rfl, ⟨e, rfl⟩, _, _, rfl, rfl, rfl⟩ := h
      exact ⟨.eseq s e, by simp [ExpForm.sorts, formSorts, Exp.Kind.keyword]⟩

/-- An expression is an atom, or opens a parenthesis and has a keyword. -/
theorem leaf_or_headed (e : ExpForm) : (∃ text, isLeaf text = true ∧ e.sorts = [.atom text]) ∨
      ∃ (kind : Exp.Kind) (rest : List Token.Sort),
        e.sorts = .opening :: .atom kind.keyword :: rest := by
  cases e with
  | framePointer => exact .inl ⟨"fp", rfl, rfl⟩
  | numeral n => exact .inl ⟨n.text, by simp [isLeaf, n.ofNumeral?_text], rfl⟩
  | const => exact .inr ⟨.const, _, rfl⟩
  | name => exact .inr ⟨.name, _, rfl⟩
  | temp => exact .inr ⟨.temp, _, rfl⟩
  | binop => exact .inr ⟨.binop, _, rfl⟩
  | not => exact .inr ⟨.not, _, rfl⟩
  | mem => exact .inr ⟨.mem, _, rfl⟩
  | call => exact .inr ⟨.call, _, rfl⟩
  | eseq => exact .inr ⟨.eseq, _, rfl⟩

theorem exists_leaf {text : String} (h : isLeaf text = true) :
    ∃ e : ExpForm, e.sorts = [.atom text] := by
  rw [isLeaf, Bool.or_eq_true, decide_eq_true_eq, isSome_iff_exists] at h
  obtain rfl | ⟨k, hk⟩ := h
  · exact ⟨.framePointer, rfl⟩
  · obtain ⟨n, rfl, -⟩ := Numeral.ofNumeral?_eq_some_iff.mp hk
    exact ⟨.numeral n, rfl⟩

/-! ## One token -/

theorem admits_stm_cons : stm.Admits (sort :: row) ↔ sort = .opening ∧ stmHead.Admits row := by
  constructor
  · rintro ⟨s, hs⟩
    obtain ⟨rest, heq⟩ := s.sorts_eq_cons
    cases heq.symm.trans hs
    exact ⟨rfl, s, hs⟩
  · rintro ⟨rfl, h⟩
    exact h

theorem admits_stmHead_cons : stmHead.Admits (sort :: row) ↔
    ∃ kind : Stm.Kind, sort = .atom kind.keyword ∧ AdmitsAll (stmBody kind) row := by
  constructor
  · rintro ⟨s, hs⟩
    obtain ⟨rest, heq⟩ := s.sorts_eq_keyword
    cases heq.symm.trans hs
    exact ⟨s.kind, rfl, exists_stm_iff.mp ⟨s, hs⟩⟩
  · rintro ⟨kind, rfl, h⟩
    exact exists_stm_iff.mpr h

theorem admits_stms_cons : stms.Admits (sort :: row) ↔
    sort = .closing ∧ row = [] ∨ sort = .opening ∧ AdmitsAll [stmHead, stms] row := by
  constructor
  · rintro ⟨parts, hparts⟩
    cases parts with
    | nil =>
      cases hparts
      exact .inl ⟨rfl, rfl⟩
    | cons s parts =>
      obtain ⟨rest, heq⟩ := s.sorts_eq_cons
      rw [StmForm.sortsAll, heq, append_assoc] at hparts
      cases hparts
      exact .inr ⟨rfl, Admits.all ⟨s, heq⟩ (by decide) (admitsAll_singleton.mpr ⟨parts, rfl⟩)⟩
  · rintro (⟨rfl, rfl⟩ | ⟨rfl, _, _, rfl, ⟨s, hs⟩, _, _, rfl, ⟨parts, rfl⟩, rfl⟩)
    · exact ⟨[], rfl⟩
    · exact ⟨s :: parts, by simp [StmForm.sortsAll, hs]⟩

theorem admits_exp_cons : exp.Admits (sort :: row) ↔
    (∃ text, sort = .atom text ∧ isLeaf text = true ∧ row = []) ∨
      sort = .opening ∧ expHead.Admits row := by
  constructor
  · rintro ⟨e, he⟩
    obtain ⟨text, hleaf, heq⟩ | ⟨kind, rest, heq⟩ := leaf_or_headed e
    · cases heq.symm.trans he
      exact .inl ⟨text, rfl, hleaf, rfl⟩
    · cases heq.symm.trans he
      exact .inr ⟨rfl, e, he⟩
  · rintro (⟨text, rfl, hleaf, rfl⟩ | ⟨rfl, h⟩)
    · exact exists_leaf hleaf
    · exact h

theorem admits_expHead_cons : expHead.Admits (sort :: row) ↔
    ∃ kind : Exp.Kind, sort = .atom kind.keyword ∧ AdmitsAll (expBody kind) row := by
  constructor
  · rintro ⟨e, he⟩
    obtain ⟨text, -, heq⟩ | ⟨kind, rest, heq⟩ := leaf_or_headed e
    · cases heq.symm.trans he
    · cases heq.symm.trans he
      exact ⟨kind, rfl, exists_exp_iff.mp ⟨e, he⟩⟩
  · rintro ⟨kind, rfl, h⟩
    exact exists_exp_iff.mpr h

theorem admits_exps_cons : exps.Admits (sort :: row) ↔
    sort = .closing ∧ row = [] ∨ sort = .opening ∧ AdmitsAll [expHead, exps] row ∨
      ∃ text, sort = .atom text ∧ isLeaf text = true ∧ exps.Admits row := by
  constructor
  · rintro ⟨args, hargs⟩
    cases args with
    | nil =>
      cases hargs
      exact .inl ⟨rfl, rfl⟩
    | cons e args =>
      rw [ExpForm.sortsAll, append_assoc] at hargs
      obtain ⟨text, hleaf, heq⟩ | ⟨kind, rest, heq⟩ := leaf_or_headed e
      · rw [heq] at hargs
        cases hargs
        exact .inr (.inr ⟨text, rfl, hleaf, args, rfl⟩)
      · rw [heq] at hargs
        cases hargs
        exact .inr (.inl ⟨rfl, Admits.all ⟨e, heq⟩ (by decide)
          (admitsAll_singleton.mpr ⟨args, rfl⟩)⟩)
  · rintro (⟨rfl, rfl⟩ | ⟨rfl, _, _, rfl, ⟨e, he⟩, _, _, rfl, ⟨args, rfl⟩, rfl⟩ |
      ⟨text, rfl, hleaf, args, rfl⟩)
    · exact ⟨[], rfl⟩
    · exact ⟨e :: args, by simp [ExpForm.sortsAll, he]⟩
    · obtain ⟨e, he⟩ := exists_leaf hleaf
      exact ⟨e :: args, by simp [ExpForm.sortsAll, he]⟩

theorem admits_methodHead_cons : methodHead.Admits (sort :: row) ↔
    sort = .atom "method" ∧ AdmitsAll [name, stm, closing] row := by
  constructor
  · rintro ⟨m, hm⟩
    cases hm
    refine ⟨rfl, ?_⟩
    show AdmitsAll [name, stm, closing] ([.atom m.name] ++ (m.body.sorts ++ [.closing]))
    exact Admits.all ⟨m.name, rfl⟩ (by decide)
      (Admits.all ⟨m.body, rfl⟩ (by decide) admitsAll_closing)
  · rintro ⟨rfl, _, _, rfl, ⟨name, rfl⟩, _, _, rfl, ⟨body, rfl⟩, _, _, rfl, rfl, rfl⟩
    exact ⟨⟨name, body⟩, rfl⟩

theorem admits_numeral_cons : numeral.Admits (sort :: row) ↔
    ∃ text k, sort = .atom text ∧ Word.ofNumeral? text = some k ∧ row = [] := by
  constructor
  · rintro ⟨n, hn⟩
    cases hn
    exact ⟨n.text, n.value, rfl, n.ofNumeral?_text, rfl⟩
  · rintro ⟨text, k, rfl, hk, rfl⟩
    obtain ⟨n, rfl, -⟩ := Numeral.ofNumeral?_eq_some_iff.mp hk
    exact ⟨n, rfl⟩

theorem admits_method_cons :
    method.Admits (sort :: row) ↔ sort = .opening ∧ methodHead.Admits row := by
  constructor
  · rintro ⟨m, hm⟩
    cases hm
    exact ⟨rfl, m, rfl⟩
  · rintro ⟨rfl, h⟩
    exact h

/-- What may follow a token of a part is what is expected in its place after the token. -/
theorem admits_cons_iff (hx : x ≠ methods) :
    x.Admits (sort :: row) ↔ ∃ body, x.after sort = some body ∧ AdmitsAll body row := by
  cases x with
  | methods => exact absurd rfl hx
  | stm => cases sort <;> simp [after, admits_stm_cons, admitsAll_singleton]
  | stmHead => cases sort <;> simp [after, admits_stmHead_cons, Stm.Kind.ofKeyword?_eq_some]
  | stms => cases sort <;> simp [after, admits_stms_cons, AdmitsAll]
  | exp => cases sort <;> simp [after, admits_exp_cons, AdmitsAll]
  | expHead => cases sort <;> simp [after, admits_expHead_cons, Exp.Kind.ofKeyword?_eq_some]
  | exps => cases sort <;> simp [after, admits_exps_cons, AdmitsAll]
  | numeral => cases sort <;> simp [after, admits_numeral_cons, AdmitsAll]
  | name | closing => cases sort <;> simp [after, Admits, AdmitsAll]
  | relation => cases sort <;> simp [after, Admits, AdmitsAll, RelOp.ofName?_eq_some]
  | operator => cases sort <;> simp [after, Admits, AdmitsAll, BinOp.ofName?_eq_some]
  | method => cases sort <;> simp [after, admits_method_cons, admitsAll_singleton]
  | methodHead => cases sort <;> simp [after, admits_methodHead_cons]

/-- Every part has a token, but methods need not. -/
theorem Admits.ne_nil (h : x.Admits row) (hx : x ≠ methods) : row ≠ [] := by
  rintro rfl
  cases x with
  | methods => exact hx rfl
  | stm =>
    obtain ⟨s, hs⟩ := h
    obtain ⟨rest, heq⟩ := s.sorts_eq_cons
    cases heq.symm.trans hs
  | exp =>
    obtain ⟨e, he⟩ := h
    obtain ⟨sort, rest, heq, -⟩ := e.sorts_eq_cons
    cases heq.symm.trans he
  | stmHead =>
    obtain ⟨s, hs⟩ := h
    obtain ⟨rest, heq⟩ := s.sorts_eq_keyword
    cases heq.symm.trans hs
  | expHead =>
    obtain ⟨e, he⟩ := h
    obtain ⟨text, -, heq⟩ | ⟨kind, rest, heq⟩ := leaf_or_headed e
    · cases heq.symm.trans he
    · cases heq.symm.trans he
  | stms | exps =>
    obtain ⟨parts, hparts⟩ := h
    exact absurd hparts (append_ne_nil_of_right_ne_nil _ (cons_ne_nil _ _))
  | numeral | name | relation | operator | method | methodHead =>
    obtain ⟨_, h⟩ := h
    cases h
  | closing => cases h

/-- Methods are expected at the end only. -/
theorem methods_notMem_after (hx : x ≠ methods) (h : x.after sort = some body) :
    methods ∉ body := by
  cases x with
  | methods => exact absurd rfl hx
  | stm | stms | name | closing | method => cases sort <;> cases h <;> decide
  | stmHead | expHead =>
    cases sort with
    | atom keyword =>
      obtain ⟨kind, -, rfl⟩ := map_eq_some_iff.mp h
      cases kind <;> decide
    | opening | closing => cases h
  | numeral | relation | operator =>
    cases sort with
    | atom text =>
      obtain ⟨_, -, rfl⟩ := map_eq_some_iff.mp h
      exact not_mem_nil
    | opening | closing => cases h
  | exp | exps | methodHead =>
    cases sort with
    | atom text =>
      obtain ⟨-, ⟨⟩⟩ := ite_none_right_eq_some.mp h
      decide
    | opening | closing => cases h <;> decide

/-- **One token of an agenda**: what may follow it is what the agenda after the token admits. -/
theorem admitsAll_cons_iff : AdmitsAll (x :: agenda) (sort :: row) ↔
      ∃ body, x.after sort = some body ∧ AdmitsAll (body ++ agenda) row := by
  by_cases hx : x = methods
  · -- Methods stay on the agenda: each takes its place before the others.
    subst hx
    constructor
    · rintro ⟨ms, hms⟩
      cases ms with
      | nil => cases hms
      | cons m ms =>
        cases hms
        exact ⟨_, rfl, Admits.all ⟨m, rfl⟩ (by decide) ⟨ms, rfl⟩⟩
    · rintro ⟨body, hbody, h⟩
      cases sort with
      | opening =>
        cases hbody
        obtain ⟨_, _, rfl, ⟨m, hm⟩, ⟨ms, rfl⟩⟩ := h
        exact ⟨m :: ms, by simp [hm]⟩
      | closing | atom => cases hbody
  · rw [admitsAll_cons hx]
    constructor
    · rintro ⟨first, rest, heq, h, hrest⟩
      -- The part has a token of its own, which is the first of the row.
      obtain ⟨sort', first, rfl⟩ := exists_cons_of_ne_nil (h.ne_nil hx)
      cases heq
      obtain ⟨body, hbody, h⟩ := (admits_cons_iff hx).mp h
      exact ⟨body, hbody, (admitsAll_append (methods_notMem_after hx hbody)).mpr
        ⟨first, rest, rfl, h, hrest⟩⟩
    · rintro ⟨body, hbody, h⟩
      obtain ⟨first, rest, rfl, h, hrest⟩ := (admitsAll_append (methods_notMem_after hx hbody)).mp h
      exact ⟨sort :: first, rest, rfl, (admits_cons_iff hx).mpr ⟨body, hbody, h⟩, hrest⟩

/-! ## Rows that can be continued -/

/-- **What may follow a row** is what the remaining agenda admits. -/
theorem admitsAll_append_iff {more : List Token.Sort} : AdmitsAll agenda (row ++ more) ↔
      ∃ rest, remaining agenda row = some rest ∧ AdmitsAll rest more := by
  induction row generalizing agenda with
  | nil => simp [remaining]
  | cons sort row ih =>
    cases agenda with
    | nil => simp [remaining, AdmitsAll]
    | cons x agenda =>
      rw [cons_append, admitsAll_cons_iff, remaining]
      simp only [ih, bind_eq_some_iff]
      constructor
      · rintro ⟨body, hbody, rest, hrest, h⟩
        exact ⟨rest, ⟨body, hbody, hrest⟩, h⟩
      · rintro ⟨rest, ⟨body, hbody, hrest⟩, h⟩
        exact ⟨body, hbody, rest, hrest, h⟩

theorem exists_admits (x : Expected) : ∃ row, x.Admits row := by
  cases x with
  | stm | stmHead => exact ⟨_, .seq [], rfl⟩
  | stms | exps => exact ⟨_, [], rfl⟩
  | exp => exact ⟨_, .framePointer, rfl⟩
  | expHead => exact ⟨_, .temp "fp", rfl⟩
  | numeral => exact ⟨_, ⟨.none, ['0'], cons_ne_nil _ _, by simp, by decide⟩, rfl⟩
  | name => exact ⟨_, "fp", rfl⟩
  | relation => exact ⟨_, .eq, rfl⟩
  | operator => exact ⟨_, .plus, rfl⟩
  | closing => exact ⟨_, rfl⟩
  | method | methodHead => exact ⟨_, ⟨"main", .seq []⟩, rfl⟩
  | methods => exact ⟨_, [], rfl⟩

/-- There is always a way to go on. -/
theorem exists_admitsAll (agenda : List Expected) : ∃ row, AdmitsAll agenda row := by
  induction agenda with
  | nil => exact ⟨[], rfl⟩
  | cons x agenda ih =>
    obtain ⟨first, h⟩ := exists_admits x
    obtain ⟨rest, hrest⟩ := ih
    by_cases hx : x = methods
    · subst hx
      exact ⟨first, h⟩
    · exact ⟨first ++ rest, h.all hx hrest⟩

/-- **A row can be continued** as long as the agenda gets past it. -/
theorem viable_iff :
    (∃ more, AdmitsAll agenda (row ++ more)) ↔ (remaining agenda row).isSome = true := by
  rw [isSome_iff_exists]
  constructor
  · rintro ⟨more, h⟩
    obtain ⟨rest, hrest, -⟩ := admitsAll_append_iff.mp h
    exact ⟨rest, hrest⟩
  · rintro ⟨rest, hrest⟩
    obtain ⟨more, hmore⟩ := exists_admitsAll rest
    exact ⟨more, admitsAll_append_iff.mpr ⟨rest, hrest, hmore⟩⟩

theorem exists_admits_append_iff :
    (∃ more, x.Admits (row ++ more)) ↔ (remaining [x] row).isSome = true := by
  rw [← viable_iff]
  exact exists_congr fun more => admitsAll_singleton.symm

end Expected

end Text

end TreeBackend
