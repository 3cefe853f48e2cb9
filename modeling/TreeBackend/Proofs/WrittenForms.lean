import Mathlib.Data.Nat.Digits.Defs
import TreeBackend.Proofs.FirstMentions
import TreeBackend.Proofs.PrintedTrees

/-!
# Written forms

A text of trees is a row of parentheses and atoms, and the grammar says which rows
are trees. Here a derivation of the grammar is a value: a `StmForm` says how a
statement is written, and an `ExpForm` how an expression is, form by form, with the
names and numerals that stand in the text. A form has one row of parentheses and
atoms (`StmForm.sorts`), and no two forms have the same one, whatever follows them
(`StmForm.eq_of_sorts`): the grammar is unambiguous.

A form is not yet a tree. It **denotes** one when its names stand for temps
(`StmForm.tree`), and then a numeral is its value, `fp` is the frame pointer, and a
sequence leaves out what only evaluates a constant.
-/

namespace TreeBackend

open List

namespace Text

/-! ## Numerals -/

/-- What may stand before the digits of a numeral. -/
inductive Sign where
  | none
  | plus
  | minus

namespace Sign

/-- The sign as it is written. -/
def chars : Sign → List Char
  | none => []
  | plus => ['+']
  | minus => ['-']

/-- A number with the sign before it. -/
def apply : Sign → Nat → Int
  | none | plus => fun n => n
  | minus => fun n => -n

end Sign

/-- The value of decimal digits, the last of which counts ones. -/
def decimalValue (digits : List Char) : Nat :=
  Nat.ofDigits 10 (digits.reverse.map fun c => c.toNat - '0'.toNat)

/-- A **numeral**: an optional sign and at least one decimal digit, with a value that
fits a word. -/
structure Numeral where
  sign : Sign
  digits : List Char
  nonempty : digits ≠ []
  decimal : ∀ c ∈ digits, c.isDigit = true
  fits : Word.fits (sign.apply (decimalValue digits)) = true

namespace Numeral

/-- The numeral as it is written. -/
def text (n : Numeral) : String := String.ofList (n.sign.chars ++ n.digits)

/-- The word that the numeral stands for; its number is the one that is written. -/
def value (n : Numeral) : Int64 := .ofInt (n.sign.apply (decimalValue n.digits))

end Numeral

theorem decimalValue_concat (digits : List Char) (c : Char) :
    decimalValue (digits ++ [c]) = 10 * decimalValue digits + (c.toNat - '0'.toNat) := by
  rw [decimalValue, reverse_concat, map_cons, Nat.ofDigits_cons, Nat.add_comm]
  rfl

/-- Reading digits from the left gives each of them its place. -/
theorem foldl_eq_decimalValue (digits : List Char) :
    digits.foldl (fun n c => 10 * n + (c.toNat - '0'.toNat)) 0 = decimalValue digits := by
  induction digits using List.reverseRecOn with
  | nil => rfl
  | append_singleton digits c ih =>
    rw [foldl_append, ih, decimalValue_concat]
    rfl

theorem ofDigits?_eq_some {digits : List Char} {n : Nat} : Word.ofDigits? digits = some n ↔
      digits ≠ [] ∧ (∀ c ∈ digits, c.isDigit = true) ∧ decimalValue digits = n := by
  unfold Word.ofDigits?
  rw [foldl_eq_decimalValue]
  split
  · next hno =>
    refine iff_of_false nofun ?_
    rintro ⟨hne, hdigits, -⟩
    simp [hne, all_eq_true.mpr hdigits] at hno
  · next hyes =>
    simp only [Bool.or_eq_true, List.isEmpty_iff, Bool.not_eq_true', not_or,
      Bool.not_eq_false, all_eq_true] at hyes
    rw [Option.some.injEq]
    exact ⟨fun h => ⟨hyes.1, hyes.2, h⟩, fun h => h.2.2⟩

/-- A digit is no sign. -/
theorem ne_sign_of_isDigit {c : Char} (h : c.isDigit = true) : c ≠ '+' ∧ c ≠ '-' := by
  constructor
  · rintro rfl
    exact absurd h (by decide)
  · rintro rfl
    exact absurd h (by decide)

namespace Numeral

theorem toList_text (n : Numeral) : n.text.toList = n.sign.chars ++ n.digits := String.toList_ofList

/-- A numeral is read as its value. -/
theorem ofNumeral?_text (n : Numeral) : Word.ofNumeral? n.text = some n.value := by
  have hdigits : Word.ofDigits? n.digits = some (decimalValue n.digits) :=
    ofDigits?_eq_some.mpr ⟨n.nonempty, n.decimal, rfl⟩
  refine Option.map_eq_some_iff.mpr ⟨_, Option.filter_eq_some_iff.mpr ⟨?_, n.fits⟩, rfl⟩
  rw [toList_text]
  cases n.sign with
  | plus | minus =>
    simp only [Sign.chars, singleton_append, hdigits]
    rfl
  | none =>
    simp only [Sign.chars, nil_append]
    -- the first character is a digit, and so it is not taken for a sign
    split
    · next digits heq => exact absurd (n.decimal '-' (heq ▸ mem_cons_self)) (by decide)
    · next digits heq => exact absurd (n.decimal '+' (heq ▸ mem_cons_self)) (by decide)
    · rw [hdigits]
      rfl

theorem exists_of_digits {text : String} {digits : List Char} {m : Nat} {k : Int} (sign : Sign)
    (htext : text.toList = sign.chars ++ digits) (hdigits : Word.ofDigits? digits = some m)
    (hvalue : sign.apply m = k) (hfits : Word.fits k = true) :
    ∃ n : Numeral, n.text = text ∧ n.value = .ofInt k := by
  obtain ⟨hne, hdecimal, rfl⟩ := ofDigits?_eq_some.mp hdigits
  refine ⟨⟨sign, digits, hne, hdecimal, hvalue ▸ hfits⟩, ?_, congrArg _ hvalue⟩
  exact String.toList_injective ((toList_text _).trans htext.symm)

/-- **What is read as a number is a numeral** of that value. -/
theorem ofNumeral?_eq_some_iff {text : String} {k : Int64} :
    Word.ofNumeral? text = some k ↔ ∃ n : Numeral, n.text = text ∧ n.value = k := by
  constructor
  · intro h
    obtain ⟨_, hfilter, rfl⟩ := Option.map_eq_some_iff.mp h
    obtain ⟨h, hfits⟩ := Option.filter_eq_some_iff.mp hfilter
    split at h
    · next digits heq =>
      obtain ⟨_, hm, hvalue⟩ := Option.map_eq_some_iff.mp h
      obtain ⟨m, hdigits, ⟨⟩⟩ := Option.bind_eq_some_iff.mp hm
      exact exists_of_digits .minus heq hdigits hvalue hfits
    · next digits heq =>
      obtain ⟨m, hm, hvalue⟩ := Option.map_eq_some_iff.mp h
      exact exists_of_digits .plus heq hm hvalue hfits
    · obtain ⟨m, hm, hvalue⟩ := Option.map_eq_some_iff.mp h
      exact exists_of_digits .none rfl hm hvalue hfits
  · rintro ⟨n, rfl, rfl⟩
    exact n.ofNumeral?_text

theorem text_ne_fp (n : Numeral) : n.text ≠ "fp" := by
  intro heq
  have h := n.ofNumeral?_text
  rw [heq] at h
  exact absurd h (by rw [show Word.ofNumeral? "fp" = none by decide +kernel]; nofun)

/-- **The text determines the numeral.** -/
theorem text_injective {m n : Numeral} (h : m.text = n.text) : m = n := by
  have hlist := congrArg String.toList h
  rw [toList_text, toList_text] at hlist
  have hfirst (n : Numeral) : ∃ c rest, n.digits = c :: rest ∧ c ≠ '+' ∧ c ≠ '-' := by
    obtain ⟨c, rest, heq⟩ := exists_cons_of_ne_nil n.nonempty
    exact ⟨c, rest, heq, ne_sign_of_isDigit (n.decimal c (heq ▸ mem_cons_self))⟩
  obtain ⟨c, rest, hc, hplus, hminus⟩ := hfirst m
  obtain ⟨d, rest', hd, hplus', hminus'⟩ := hfirst n
  have hsame : m.sign = n.sign ∧ m.digits = n.digits := by
    rw [hc, hd] at hlist ⊢
    cases hm : m.sign <;> cases hn : n.sign <;> rw [hm, hn] at hlist <;>
      simp_all [Sign.chars, eq_comm]
  cases m
  cases n
  cases hsame.1
  cases hsame.2
  rfl

end Numeral

/-! ## Forms -/

mutual

/-- How an expression is **written**. -/
inductive ExpForm where
  /-- `fp` -/
  | framePointer
  /-- A numeral by itself. -/
  | numeral (n : Numeral)
  /-- `(const N)` -/
  | const (n : Numeral)
  /-- `(name A)` -/
  | name (label : String)
  /-- `(temp A)` -/
  | temp (name : String)
  /-- `(binop OP E E)` -/
  | binop (op : BinOp) (left right : ExpForm)
  /-- `(not E)` -/
  | not (operand : ExpForm)
  /-- `(mem E)` -/
  | mem (address : ExpForm)
  /-- `(call E E*)` -/
  | call (function : ExpForm) (args : List ExpForm)
  /-- `(eseq S E)` -/
  | eseq (effect : StmForm) (value : ExpForm)

/-- How a statement is **written**. -/
inductive StmForm where
  /-- `(seq S*)` -/
  | seq (parts : List StmForm)
  /-- `(move E E)` -/
  | move (dst src : ExpForm)
  /-- `(exp E)` -/
  | exp (e : ExpForm)
  /-- `(jump A)` -/
  | jump (target : String)
  /-- `(cjump REL E E A)` -/
  | cjump (rel : RelOp) (left right : ExpForm) (target : String)
  /-- `(label A)` -/
  | label (name : String)

end

/-- How a method is written: `(method A S)`. -/
structure MethodForm where
  name : String
  body : StmForm

mutual

/-- The parentheses and atoms of a form. -/
def ExpForm.sorts : ExpForm → List Token.Sort
  | .framePointer => [.atom "fp"]
  | .numeral n => [.atom n.text]
  | .const n => formSorts "const" [.atom n.text]
  | .name l => formSorts "name" [.atom l]
  | .temp x => formSorts "temp" [.atom x]
  | .binop op l r => formSorts "binop" (.atom op.name :: (l.sorts ++ r.sorts))
  | .not e => formSorts "not" e.sorts
  | .mem e => formSorts "mem" e.sorts
  | .call f args => formSorts "call" (f.sorts ++ ExpForm.sortsAll args)
  | .eseq s e => formSorts "eseq" (s.sorts ++ e.sorts)

/-- The parentheses and atoms of forms, one after the other. -/
def ExpForm.sortsAll : List ExpForm → List Token.Sort
  | [] => []
  | e :: es => e.sorts ++ ExpForm.sortsAll es

@[inherit_doc ExpForm.sorts]
def StmForm.sorts : StmForm → List Token.Sort
  | .seq parts => formSorts "seq" (StmForm.sortsAll parts)
  | .move dst src => formSorts "move" (dst.sorts ++ src.sorts)
  | .exp e => formSorts "exp" e.sorts
  | .jump l => formSorts "jump" [.atom l]
  | .cjump rel l r target =>
    formSorts "cjump" (.atom rel.name :: (l.sorts ++ (r.sorts ++ [.atom target])))
  | .label l => formSorts "label" [.atom l]

@[inherit_doc ExpForm.sortsAll]
def StmForm.sortsAll : List StmForm → List Token.Sort
  | [] => []
  | s :: stms => s.sorts ++ StmForm.sortsAll stms

end

@[inherit_doc ExpForm.sorts]
def MethodForm.sorts (m : MethodForm) : List Token.Sort :=
  formSorts "method" (.atom m.name :: m.body.sorts)

mutual

/-- The names of temps in a form, from left to right; `fp` is none. -/
def ExpForm.names : ExpForm → List String
  | .framePointer | .numeral _ | .const _ | .name _ => []
  | .temp x => if x = "fp" then [] else [x]
  | .binop _ l r => l.names ++ r.names
  | .not e | .mem e => e.names
  | .call f args => f.names ++ ExpForm.namesAll args
  | .eseq s e => s.names ++ e.names

/-- The names of temps in forms. -/
def ExpForm.namesAll : List ExpForm → List String
  | [] => []
  | e :: es => e.names ++ ExpForm.namesAll es

@[inherit_doc ExpForm.names]
def StmForm.names : StmForm → List String
  | .seq parts => StmForm.namesAll parts
  | .move dst src => dst.names ++ src.names
  | .exp e => e.names
  | .jump _ | .label _ => []
  | .cjump _ l r _ => l.names ++ r.names

@[inherit_doc ExpForm.namesAll]
def StmForm.namesAll : List StmForm → List String
  | [] => []
  | s :: stms => s.names ++ StmForm.namesAll stms

end

/-- The temp that a name **stands for**: `fp` is the frame pointer, and every other name
is looked up in a table. -/
def standsFor (table : Table) (name : String) : Temp :=
  if name = "fp" then .framePointer else (table.lookup name).getD .framePointer

mutual

/-- The tree that a form **denotes**, with the temps of a table. -/
def ExpForm.tree (table : Table) : ExpForm → Exp
  | .framePointer => .temp .framePointer
  | .numeral n | .const n => .const n.value
  | .name l => .name ⟨l⟩
  | .temp x => .temp (standsFor table x)
  | .binop op l r => .binop op (l.tree table) (r.tree table)
  | .not e => .not (e.tree table)
  | .mem e => .mem (e.tree table)
  | .call f args => .call (f.tree table) (ExpForm.trees table args)
  | .eseq s e => .eseq (s.tree table) (e.tree table)

/-- The trees that forms denote. -/
def ExpForm.trees (table : Table) : List ExpForm → List Exp
  | [] => []
  | e :: es => e.tree table :: ExpForm.trees table es

@[inherit_doc ExpForm.tree]
def StmForm.tree (table : Table) : StmForm → Stm
  | .seq parts => Stm.seqAll (StmForm.trees table parts)
  | .move dst src => .move (dst.tree table) (src.tree table)
  | .exp e => .exp (e.tree table)
  | .jump l => .jump ⟨l⟩
  | .cjump rel l r target => .cjump rel (l.tree table) (r.tree table) ⟨target⟩
  | .label l => .label ⟨l⟩

@[inherit_doc ExpForm.trees]
def StmForm.trees (table : Table) : List StmForm → List Stm
  | [] => []
  | s :: stms => s.tree table :: StmForm.trees table stms

end

/-! ## The grammar is unambiguous -/

/-- Forms with the same row have the same keyword, and the same stands in them and after
them. -/
theorem formSorts_append_eq {keyword keyword' : String} {body body' rest rest' : List Token.Sort}
    (h : formSorts keyword body ++ rest = formSorts keyword' body' ++ rest') :
    keyword = keyword' ∧ body ++ .closing :: rest = body' ++ .closing :: rest' := by
  simpa [formSorts] using h

theorem BinOp.name_injective {op op' : BinOp} (h : op.name = op'.name) : op = op' :=
  Option.some.inj ((BinOp.ofName?_name op).symm.trans (h ▸ BinOp.ofName?_name op'))

theorem RelOp.name_injective {rel rel' : RelOp} (h : rel.name = rel'.name) : rel = rel' :=
  Option.some.inj ((RelOp.ofName?_name rel).symm.trans (h ▸ RelOp.ofName?_name rel'))

/-- A statement opens a parenthesis. -/
theorem StmForm.sorts_eq_cons (s : StmForm) : ∃ rest, s.sorts = .opening :: rest := by
  cases s with
  | seq | move | exp | jump | cjump | label => exact ⟨_, rfl⟩

/-- An expression does not begin where a parenthesis closes. -/
theorem ExpForm.sorts_eq_cons (e : ExpForm) :
    ∃ sort rest, e.sorts = sort :: rest ∧ sort ≠ .closing := by
  cases e with
  | framePointer | numeral | const | name | temp | binop | not | mem | call | eseq =>
    exact ⟨_, _, rfl, nofun⟩

/-- The shape of the expression that a row begins with, if a parenthesis opens it. -/
def expKind? : List Token.Sort → Option Exp.Kind
  | .opening :: .atom keyword :: _ => Exp.Kind.ofKeyword? keyword
  | _ => none

/-- The shape of the statement that a row begins with. -/
def stmKind? : List Token.Sort → Option Stm.Kind
  | .opening :: .atom keyword :: _ => Stm.Kind.ofKeyword? keyword
  | _ => none

/-- The shape that the keyword of a form is for. -/
def ExpForm.kind? : ExpForm → Option Exp.Kind
  | .framePointer | .numeral _ => none
  | .const _ => some .const
  | .name _ => some .name
  | .temp _ => some .temp
  | .binop .. => some .binop
  | .not _ => some .not
  | .mem _ => some .mem
  | .call .. => some .call
  | .eseq .. => some .eseq

@[inherit_doc ExpForm.kind?]
def StmForm.kind : StmForm → Stm.Kind
  | .seq _ => .seq
  | .move .. => .move
  | .exp _ => .exp
  | .jump _ => .jump
  | .cjump .. => .cjump
  | .label _ => .label

theorem ExpForm.expKind?_sorts (e : ExpForm) (rest : List Token.Sort) :
    expKind? (e.sorts ++ rest) = e.kind? := by
  cases e with
  | framePointer | numeral => rfl
  | const => exact Exp.Kind.ofKeyword?_keyword .const
  | name => exact Exp.Kind.ofKeyword?_keyword .name
  | temp => exact Exp.Kind.ofKeyword?_keyword .temp
  | binop => exact Exp.Kind.ofKeyword?_keyword .binop
  | not => exact Exp.Kind.ofKeyword?_keyword .not
  | mem => exact Exp.Kind.ofKeyword?_keyword .mem
  | call => exact Exp.Kind.ofKeyword?_keyword .call
  | eseq => exact Exp.Kind.ofKeyword?_keyword .eseq

theorem StmForm.stmKind?_sorts (s : StmForm) (rest : List Token.Sort) :
    stmKind? (s.sorts ++ rest) = some s.kind := by
  cases s with
  | seq => exact Stm.Kind.ofKeyword?_keyword .seq
  | move => exact Stm.Kind.ofKeyword?_keyword .move
  | exp => exact Stm.Kind.ofKeyword?_keyword .exp
  | jump => exact Stm.Kind.ofKeyword?_keyword .jump
  | cjump => exact Stm.Kind.ofKeyword?_keyword .cjump
  | label => exact Stm.Kind.ofKeyword?_keyword .label

mutual

/-- **An expression is written in one way**, whatever follows it. -/
theorem ExpForm.eq_of_sorts (e e' : ExpForm) {rest rest' : List Token.Sort}
    (h : e.sorts ++ rest = e'.sorts ++ rest') : e = e' ∧ rest = rest' := by
  -- the first tokens tell the kind, so only forms of one kind are to be compared
  have hkind : e.kind? = e'.kind? := by rw [← e.expKind?_sorts rest, h, e'.expKind?_sorts]
  cases e with
  | framePointer =>
    cases e' with
    | framePointer => exact ⟨rfl, append_cancel_left h⟩
    | numeral n =>
      simp only [ExpForm.sorts, singleton_append, List.cons.injEq, Token.Sort.atom.injEq] at h
      exact absurd h.1.symm n.text_ne_fp
    | _ => cases hkind
  | numeral n =>
    cases e' with
    | framePointer =>
      simp only [ExpForm.sorts, singleton_append, List.cons.injEq, Token.Sort.atom.injEq] at h
      exact absurd h.1 n.text_ne_fp
    | numeral n' =>
      simp only [ExpForm.sorts, singleton_append, List.cons.injEq, Token.Sort.atom.injEq] at h
      exact ⟨congrArg ExpForm.numeral (Numeral.text_injective h.1), h.2⟩
    | _ => cases hkind
  | const n =>
    cases e' with
    | const n' =>
      obtain ⟨htext, hrest⟩ := by simpa using (formSorts_append_eq h).2
      exact ⟨congrArg ExpForm.const (Numeral.text_injective htext), hrest⟩
    | _ => cases hkind
  | name l =>
    cases e' with
    | name l' =>
      obtain ⟨rfl, hrest⟩ := by simpa using (formSorts_append_eq h).2
      exact ⟨rfl, hrest⟩
    | _ => cases hkind
  | temp x =>
    cases e' with
    | temp x' =>
      obtain ⟨rfl, hrest⟩ := by simpa using (formSorts_append_eq h).2
      exact ⟨rfl, hrest⟩
    | _ => cases hkind
  | binop op l r =>
    cases e' with
    | binop op' l' r' =>
      obtain ⟨hop, hleft⟩ := List.cons.inj (formSorts_append_eq h).2
      simp only [append_eq, append_assoc] at hleft
      obtain ⟨rfl, hright⟩ := l.eq_of_sorts l' hleft
      obtain ⟨rfl, hclose⟩ := r.eq_of_sorts r' hright
      obtain rfl := BinOp.name_injective (Token.Sort.atom.inj hop)
      exact ⟨rfl, tail_eq_of_cons_eq hclose⟩
    | _ => cases hkind
  | not e =>
    cases e' with
    | not e' =>
      obtain ⟨rfl, hclose⟩ := e.eq_of_sorts e' (formSorts_append_eq h).2
      exact ⟨rfl, tail_eq_of_cons_eq hclose⟩
    | _ => cases hkind
  | mem e =>
    cases e' with
    | mem e' =>
      obtain ⟨rfl, hclose⟩ := e.eq_of_sorts e' (formSorts_append_eq h).2
      exact ⟨rfl, tail_eq_of_cons_eq hclose⟩
    | _ => cases hkind
  | call f args =>
    cases e' with
    | call f' args' =>
      have hbody := (formSorts_append_eq h).2
      rw [append_assoc, append_assoc] at hbody
      obtain ⟨rfl, hargs⟩ := f.eq_of_sorts f' hbody
      obtain ⟨rfl, hrest⟩ := ExpForm.eq_of_sortsAll args args' hargs
      exact ⟨rfl, hrest⟩
    | _ => cases hkind
  | eseq s e =>
    cases e' with
    | eseq s' e' =>
      have hbody := (formSorts_append_eq h).2
      rw [append_assoc, append_assoc] at hbody
      obtain ⟨rfl, hsecond⟩ := s.eq_of_sorts s' hbody
      obtain ⟨rfl, hclose⟩ := e.eq_of_sorts e' hsecond
      exact ⟨rfl, tail_eq_of_cons_eq hclose⟩
    | _ => cases hkind
termination_by structural e

/-- A row of expressions ends where a parenthesis closes. -/
theorem ExpForm.eq_of_sortsAll (es es' : List ExpForm) {rest rest' : List Token.Sort}
    (h : ExpForm.sortsAll es ++ .closing :: rest = ExpForm.sortsAll es' ++ .closing :: rest') :
    es = es' ∧ rest = rest' := by
  cases es with
  | nil =>
    cases es' with
    | nil => exact ⟨rfl, tail_eq_of_cons_eq h⟩
    | cons e' es' =>
      obtain ⟨sort, more, heq, hno⟩ := e'.sorts_eq_cons
      simp only [ExpForm.sortsAll, heq] at h
      exact absurd (List.cons.inj h).1.symm hno
  | cons e es =>
    cases es' with
    | nil =>
      obtain ⟨sort, more, heq, hno⟩ := e.sorts_eq_cons
      simp only [ExpForm.sortsAll, heq] at h
      exact absurd (List.cons.inj h).1 hno
    | cons e' es' =>
      rw [ExpForm.sortsAll, ExpForm.sortsAll, append_assoc, append_assoc] at h
      obtain ⟨rfl, hmore⟩ := e.eq_of_sorts e' h
      obtain ⟨rfl, hrest⟩ := ExpForm.eq_of_sortsAll es es' hmore
      exact ⟨rfl, hrest⟩
termination_by structural es

/-- **A statement is written in one way**, whatever follows it. -/
theorem StmForm.eq_of_sorts (s s' : StmForm) {rest rest' : List Token.Sort}
    (h : s.sorts ++ rest = s'.sorts ++ rest') : s = s' ∧ rest = rest' := by
  have hkind : some s.kind = some s'.kind := by rw [← s.stmKind?_sorts rest, h, s'.stmKind?_sorts]
  cases s with
  | seq parts =>
    cases s' with
    | seq parts' =>
      obtain ⟨rfl, hrest⟩ := StmForm.eq_of_sortsAll parts parts' (formSorts_append_eq h).2
      exact ⟨rfl, hrest⟩
    | _ => cases hkind
  | move dst src =>
    cases s' with
    | move dst' src' =>
      have hbody := (formSorts_append_eq h).2
      rw [append_assoc, append_assoc] at hbody
      obtain ⟨rfl, hsecond⟩ := dst.eq_of_sorts dst' hbody
      obtain ⟨rfl, hclose⟩ := src.eq_of_sorts src' hsecond
      exact ⟨rfl, tail_eq_of_cons_eq hclose⟩
    | _ => cases hkind
  | exp e =>
    cases s' with
    | exp e' =>
      obtain ⟨rfl, hclose⟩ := e.eq_of_sorts e' (formSorts_append_eq h).2
      exact ⟨rfl, tail_eq_of_cons_eq hclose⟩
    | _ => cases hkind
  | jump l =>
    cases s' with
    | jump l' =>
      obtain ⟨rfl, hrest⟩ := by simpa using (formSorts_append_eq h).2
      exact ⟨rfl, hrest⟩
    | _ => cases hkind
  | cjump rel l r target =>
    cases s' with
    | cjump rel' l' r' target' =>
      obtain ⟨hrel, hleft⟩ := List.cons.inj (formSorts_append_eq h).2
      simp only [append_eq, append_assoc] at hleft
      obtain ⟨rfl, hright⟩ := l.eq_of_sorts l' hleft
      obtain ⟨rfl, htarget⟩ := r.eq_of_sorts r' hright
      obtain rfl := RelOp.name_injective (Token.Sort.atom.inj hrel)
      obtain ⟨rfl, hrest⟩ := by simpa using htarget
      exact ⟨rfl, hrest⟩
    | _ => cases hkind
  | label l =>
    cases s' with
    | label l' =>
      obtain ⟨rfl, hrest⟩ := by simpa using (formSorts_append_eq h).2
      exact ⟨rfl, hrest⟩
    | _ => cases hkind
termination_by structural s

/-- A row of statements ends where a parenthesis closes. -/
theorem StmForm.eq_of_sortsAll (stms stms' : List StmForm) {rest rest' : List Token.Sort}
    (h : StmForm.sortsAll stms ++ .closing :: rest = StmForm.sortsAll stms' ++ .closing :: rest') :
    stms = stms' ∧ rest = rest' := by
  cases stms with
  | nil =>
    cases stms' with
    | nil => exact ⟨rfl, tail_eq_of_cons_eq h⟩
    | cons s' stms' =>
      obtain ⟨more, heq⟩ := s'.sorts_eq_cons
      simp [StmForm.sortsAll, heq] at h
  | cons s stms =>
    cases stms' with
    | nil =>
      obtain ⟨more, heq⟩ := s.sorts_eq_cons
      simp [StmForm.sortsAll, heq] at h
    | cons s' stms' =>
      rw [StmForm.sortsAll, StmForm.sortsAll, append_assoc, append_assoc] at h
      obtain ⟨rfl, hmore⟩ := s.eq_of_sorts s' h
      obtain ⟨rfl, hrest⟩ := StmForm.eq_of_sortsAll stms stms' hmore
      exact ⟨rfl, hrest⟩
termination_by structural stms

end

/-- **Methods are written in one way.** -/
theorem MethodForm.eq_of_sorts {forms forms' : List MethodForm}
    (h : forms.flatMap MethodForm.sorts = forms'.flatMap MethodForm.sorts) : forms = forms' := by
  induction forms generalizing forms' with
  | nil =>
    cases forms' with
    | nil => rfl
    | cons => simp [MethodForm.sorts, formSorts] at h
  | cons m forms ih =>
    cases forms' with
    | nil => simp [MethodForm.sorts, formSorts] at h
    | cons m' forms' =>
      obtain ⟨hname, hbody⟩ := List.cons.inj (formSorts_append_eq h).2
      obtain ⟨hbody, hclose⟩ := m.body.eq_of_sorts m'.body hbody
      rw [ih (tail_eq_of_cons_eq hclose)]
      cases m
      cases m'
      cases Token.Sort.atom.inj hname
      cases hbody
      rfl

end Text

end TreeBackend
