import TreeBackend.Proofs.ReadTrees
import TreeBackend.Text.Printer

/-!
# The tokens of printed trees

A printed tree is a row of parentheses, atoms and blanks. The scanner finds just
these parentheses and atoms in it again, in this order (`Stm.sorts_tokens_print`), as
long as all names can stand as atoms: an atom ends where a blank or a parenthesis
follows, and the printer puts one after each. Inside an expression a statement is
printed on one line; since no line of a tree has a newline in it, putting lines
together changes nothing but blanks.
-/

namespace TreeBackend

open List

/-! ## Numerals -/

namespace Word

/-- The digits of a number spell the number. -/
theorem ofDigits?_toDigits (n : Nat) : ofDigits? (Nat.toDigits 10 n) = some n := by
  have hdigits : ∀ c ∈ Nat.toDigits 10 n, c.isDigit = true := fun c hc =>
    Nat.isDigit_of_mem_toDigits (by decide) (by decide) hc
  have hvalue := Nat.ofDigitChars_ten_toDigits (n := n)
  rw [ofDigits?, if_neg]
  · exact congrArg some hvalue
  · simpa using hdigits

theorem isDigit_of_mem_toDigits {n : Nat} {c : Char} (h : c ∈ Nat.toDigits 10 n) :
    c.isDigit = true :=
  Nat.isDigit_of_mem_toDigits (by decide) (by decide) h

/-- The numeral of a number: its digits, after a minus sign if it is negative. -/
theorem toList_toString (n : Int) :
    (toString n).toList = (if n < 0 then ['-'] else []) ++ Nat.toDigits 10 n.natAbs := by
  cases n with
  | ofNat m => exact Nat.toList_repr
  | negSucc m =>
    rw [if_pos (Int.negSucc_lt_zero m)]
    show ("-" ++ (m + 1).repr).toList = _
    rw [String.toList_append, Nat.toList_repr]
    rfl

/-- **A word is read from its numeral.** -/
theorem ofNumeral?_toString (w : Int64) : ofNumeral? (toString w) = some w := by
  refine Option.map_eq_some_iff.mpr ⟨w.toInt,
    Option.filter_eq_some_iff.mpr ⟨?_, fits_toInt w⟩, w.ofInt_toInt⟩
  have hlist : (toString w).toList = _ := toList_toString w.toInt
  rw [hlist]
  generalize w.toInt = n
  by_cases hneg : n < 0
  · rw [if_pos hneg]
    simp only [singleton_append, ofDigits?_toDigits]
    show some (-(n.natAbs : Int)) = some n
    congr 1
    omega
  · rw [if_neg hneg, nil_append]
    -- no digit is a sign
    split
    · next digits heq =>
      exact absurd (isDigit_of_mem_toDigits (heq ▸ mem_cons_self)) (by decide)
    · next digits heq =>
      exact absurd (isDigit_of_mem_toDigits (heq ▸ mem_cons_self)) (by decide)
    · rw [ofDigits?_toDigits, Option.map_some]
      congr 1
      show (n.natAbs : Int) = n
      omega

end Word

namespace Text

/-- A digit does not end an atom. -/
theorem isDelimiter_of_isDigit {c : Char} (h : c.isDigit = true) : isDelimiter c = false := by
  have hrange : 48 ≤ c.toNat ∧ c.toNat ≤ 57 := by
    simp only [Char.isDigit, Bool.and_eq_true, decide_eq_true_eq] at h
    exact h
  have hne {d : Char} (hd : d.toNat < 48 ∨ 57 < d.toNat) : (c == d) = false := by
    rw [beq_eq_false_iff_ne]
    rintro rfl
    omega
  have hblank : isBlank c = false := by
    simp only [isBlank, blankRanges, any_cons, any_nil, Bool.or_false,
      Bool.or_eq_false_iff, Bool.and_eq_false_iff, decide_eq_false_iff_not]
    omega
  rw [isDelimiter, hblank, hne (by decide), hne (by decide), hne (by decide)]
  rfl

/-- A numeral is an atom. -/
theorem isAtom_toString (n : Int) : IsAtom (toString n) := by
  refine ⟨fun hempty => ?_, fun c hc => ?_⟩
  · have hnil := congrArg String.toList hempty
    rw [Word.toList_toString] at hnil
    exact Nat.toDigits_ne_nil (append_eq_nil_iff.mp hnil).2
  · rw [Word.toList_toString, mem_append] at hc
    obtain hc | hc := hc
    · split at hc
      · rw [mem_singleton.mp hc]
        decide
      · cases hc
    · exact isDelimiter_of_isDigit (Word.isDigit_of_mem_toDigits hc)

/-! ## What the scanner finds -/

/-- No atom goes on into what follows: it is at its end, or starts with a delimiter. -/
def Delimited (rest : List Char) : Prop := ∀ c ∈ rest.head?, isDelimiter c = true

/-- The text **spells** a row of parentheses and atoms: whatever follows it, if no atom
goes on into it, the scanner finds these and then goes on with what follows. -/
def Spells (text : String) (sorts : List Token.Sort) : Prop :=
  ∀ p rest, Delimited rest → ∃ found p', found.map Token.sort = sorts ∧
    Scan.gap.run p (text.toList ++ rest) = found ++ Scan.gap.run p' rest

/-- What is found at the end of a text. -/
theorem Spells.tokens {text : String} {sorts : List Token.Sort} (h : Spells text sorts) :
    (tokens text).map Token.sort = sorts := by
  obtain ⟨found, p', hfound, hrun⟩ := h Position.start [] nofun
  rw [append_nil] at hrun
  rw [Text.tokens, hrun, ← hfound]
  exact congrArg _ (append_nil _)

section Spells

variable {a b : String} {s s' : List Token.Sort}

theorem spells_empty : Spells "" [] := fun p _ _ => ⟨[], p, rfl, rfl⟩

/-- Where an atom ends. -/
theorem Scan.run_atom (start p : Position) (reversed : List Char) {rest : List Char}
    (h : Delimited rest) : (Scan.atom start reversed).run p rest =
      (Scan.atom start reversed).pending ++ Scan.gap.run p rest := by
  cases rest with
  | nil => rfl
  | cons c rest =>
    have hc : isDelimiter c = true := h c rfl
    show ((Scan.atom start reversed).step p c).1 ++ _ = _
    rw [Scan.step, if_pos hc, append_assoc]
    rfl

/-- Characters of an atom are collected. -/
theorem Scan.run_atom_append (start p : Position) (reversed : List Char) {cs : List Char}
    (hcs : ∀ c ∈ cs, isDelimiter c = false) (rest : List Char) :
    ∃ p', (Scan.atom start reversed).run p (cs ++ rest) =
      (Scan.atom start (cs.reverse ++ reversed)).run p' rest := by
  induction cs generalizing p reversed with
  | nil => exact ⟨p, rfl⟩
  | cons c cs ih =>
    rw [forall_mem_cons] at hcs
    obtain ⟨p', hp'⟩ := ih (p.after c) (c :: reversed) hcs.2
    refine ⟨p', ?_⟩
    show ((Scan.atom start reversed).step p c).1 ++
      ((Scan.atom start reversed).step p c).2.run (p.after c) (cs ++ rest) = _
    rw [Scan.step, if_neg (by simp [hcs.1])]
    rw [hp', reverse_cons, append_assoc]
    rfl

/-- **An atom** spells itself. -/
theorem spells_atom (ha : IsAtom a) : Spells a [.atom a] := by
  intro p rest hrest
  obtain ⟨hne, hchars⟩ := ha
  cases hlist : a.toList with
  | nil => exact absurd (String.toList_eq_nil_iff.mp hlist) hne
  | cons c cs =>
    rw [hlist, forall_mem_cons] at hchars
    obtain ⟨hc, hcs⟩ := hchars
    have hbegin : Scan.begin p c = ([], Scan.atom p [c]) := by
      simp only [isDelimiter, Bool.or_eq_false_iff, beq_eq_false_iff_ne] at hc
      obtain ⟨⟨⟨hblank, hopen⟩, hclose⟩, hcomment⟩ := hc
      rw [Scan.begin, hblank, if_neg Bool.false_ne_true, if_neg hcomment, if_neg hopen,
        if_neg hclose]
    obtain ⟨p', hp'⟩ := Scan.run_atom_append p (p.after c) [c] hcs rest
    refine ⟨(Scan.atom p (cs.reverse ++ [c])).pending, p', ?_, ?_⟩
    · show [Token.Sort.atom (String.ofList (cs.reverse ++ [c]).reverse)] = _
      rw [reverse_append, reverse_reverse, reverse_singleton, singleton_append,
        ← hlist, String.ofList_toList]
    · show (Scan.begin p c).1 ++ (Scan.begin p c).2.run (p.after c) (cs ++ rest) = _
      rw [hbegin]
      exact hp'.trans (Scan.run_atom p p' _ hrest)

/-- Blanks before a text spell nothing. -/
theorem Spells.after_blanks (ha : a.toList.all isBlank = true) (hb : Spells b s) :
    Spells (a ++ b) s := by
  rw [all_eq_true] at ha
  have hskip : ∀ (cs : List Char), (∀ c ∈ cs, isBlank c = true) → ∀ p rest,
      ∃ p', Scan.gap.run p (cs ++ rest) = Scan.gap.run p' rest := by
    intro cs
    induction cs with
    | nil => exact fun _ p rest => ⟨p, rfl⟩
    | cons c cs ih =>
      intro hcs p rest
      rw [forall_mem_cons] at hcs
      obtain ⟨p', hp'⟩ := ih hcs.2 (p.after c) rest
      refine ⟨p', ?_⟩
      show (Scan.begin p c).1 ++ (Scan.begin p c).2.run (p.after c) (cs ++ rest) = _
      rw [Scan.begin, if_pos hcs.1]
      exact hp'
  intro p rest hrest
  obtain ⟨p', hp'⟩ := hskip a.toList ha p (b.toList ++ rest)
  obtain ⟨found, p'', hfound, hrun⟩ := hb p' rest hrest
  refine ⟨found, p'', hfound, ?_⟩
  rw [String.toList_append, append_assoc, hp', hrun]

/-- A parenthesis is a token by itself. -/
theorem Spells.opening (h : Spells b s) : Spells ("(" ++ b) (.opening :: s) := by
  intro p rest hrest
  obtain ⟨found, p', hfound, hrun⟩ := h (p.after '(') rest hrest
  refine ⟨⟨.opening, p⟩ :: found, p', by rw [map_cons, hfound], ?_⟩
  rw [String.toList_append, append_assoc, cons_append, ← hrun]
  rfl

theorem spells_closing : Spells ")" [.closing] := fun p _ _ =>
  ⟨[⟨.closing, p⟩], p.after ')', rfl, rfl⟩

/-- No atom goes on into the text. -/
def Delimits (text : String) : Prop := ∀ c ∈ text.toList.head?, isDelimiter c = true

instance (text : String) : Decidable (Delimits text) :=
  @Option.decidableForallMem _ _ inferInstance text.toList.head?

theorem Delimits.delimited (h : Delimits a) {rest : List Char} (hrest : Delimited rest) :
    Delimited (a.toList ++ rest) := by
  unfold Delimits at h
  cases hlist : a.toList with
  | nil => exact hrest
  | cons c cs =>
    rw [hlist] at h
    exact h

/-- A text ends an atom if its first part does. -/
theorem Delimits.append (h : Delimits a) (hne : a ≠ "") (b : String) : Delimits (a ++ b) := by
  unfold Delimits at h ⊢
  rw [String.toList_append]
  cases hlist : a.toList with
  | nil => exact absurd (String.toList_eq_nil_iff.mp hlist) hne
  | cons c cs =>
    rw [hlist] at h
    exact h

/-- **Texts one after the other** spell what they spell, if no atom goes on into the
second. -/
theorem Spells.append (ha : Spells a s) (hb : Spells b s') (hdelimits : Delimits b) :
    Spells (a ++ b) (s ++ s') := by
  intro p rest hrest
  obtain ⟨found, p', hfound, hrun⟩ := ha p (b.toList ++ rest) (hdelimits.delimited hrest)
  obtain ⟨found', p'', hfound', hrun'⟩ := hb p' rest hrest
  refine ⟨found ++ found', p'', by rw [map_append, hfound, hfound'], ?_⟩
  rw [String.toList_append, append_assoc, hrun, hrun', append_assoc]

end Spells

/-! ## Lines -/

/-- The text is a **line** that spells a row of parentheses and atoms: there is no
newline in it. -/
structure Line (text : String) (sorts : List Token.Sort) : Prop where
  spells : Spells text sorts
  flat : '\n' ∉ text.toList

/-- Texts are lines that spell a row together. -/
def Lines (lines : List String) (sorts : List Token.Sort) : Prop :=
  ∃ parts, List.Forall₂ Line lines parts ∧ parts.flatten = sorts

/-- What a form headed by a keyword spells. -/
def formSorts (keyword : String) (body : List Token.Sort) : List Token.Sort :=
  .opening :: .atom keyword :: (body ++ [.closing])

/-- What a sequence spells. -/
def frameSorts (isSeq : Bool) (body : List Token.Sort) : List Token.Sort :=
  if isSeq then formSorts "seq" body else body

/-- A keyword and texts after it, a space before each, in parentheses. -/
def form (keyword : String) (args : List String) : String :=
  "(" ++ (keyword ++ (String.join (args.map (" " ++ ·)) ++ ")"))

section Lines

variable {a b : String} {s s' : List Token.Sort} {lines lines' : List String}

theorem IsAtom.line (ha : IsAtom a) : Line a [.atom a] :=
  ⟨spells_atom ha, fun hmem => absurd (ha.2 _ hmem) (by decide)⟩

theorem Line.singleton (h : Line a s) : Lines [a] s := ⟨[s], .cons h .nil, append_nil s⟩

theorem lines_nil : Lines [] [] := ⟨[], .nil, rfl⟩

/-- Lines after lines spell tokens after tokens. -/
theorem Lines.append (h : Lines lines s) (h' : Lines lines' s') :
    Lines (lines ++ lines') (s ++ s') := by
  obtain ⟨parts, hall, rfl⟩ := h
  obtain ⟨parts', hall', rfl⟩ := h'
  exact ⟨parts ++ parts', rel_append hall hall', flatten_append⟩

theorem Lines.cons (h : Line a s) (h' : Lines lines s') : Lines (a :: lines) (s ++ s') :=
  h.singleton.append h'

/-- **A form** is a line if its parts are. -/
theorem Lines.form {keyword : String} (hkeyword : IsAtom keyword) (h : Lines lines s) :
    Line (form keyword lines) (formSorts keyword s) := by
  obtain ⟨parts, hall, rfl⟩ := h
  have hargs : Spells (String.join (lines.map (" " ++ ·)) ++ ")") (parts.flatten ++ [.closing]) ∧
      Delimits (String.join (lines.map (" " ++ ·)) ++ ")") ∧
      '\n' ∉ (String.join (lines.map (" " ++ ·)) ++ ")").toList := by
    induction hall with
    | nil => exact ⟨spells_closing, by decide, by decide⟩
    | @cons line part lines parts hline _ ih =>
      obtain ⟨hspells, hdelimits, hflat⟩ := ih
      have heq : String.join ((line :: lines).map (" " ++ ·)) ++ ")" =
          " " ++ (line ++ (String.join (lines.map (" " ++ ·)) ++ ")")) := by
        rw [map_cons, String.join_cons, String.append_assoc, String.append_assoc]
      rw [heq, flatten_cons, append_assoc]
      refine ⟨(hline.spells.append hspells hdelimits).after_blanks (by decide),
        Delimits.append (by decide) (by decide) _, ?_⟩
      simp only [String.toList_append, mem_append, not_or]
      exact ⟨by decide, hline.flat, by simpa using hflat⟩
  obtain ⟨hspells, hdelimits, hflat⟩ := hargs
  refine ⟨((spells_atom hkeyword).append hspells hdelimits).opening, ?_⟩
  simp only [Text.form, String.toList_append, mem_append, not_or]
  exact ⟨by decide, hkeyword.line.flat, by simpa using hflat⟩

theorem Lines.form_of_eq {keyword line : String} (hkeyword : IsAtom keyword) (h : Lines lines s)
    (hline : line = Text.form keyword lines) : Line line (formSorts keyword s) :=
  hline ▸ h.form hkeyword

/-- Blanks before a line are no tokens. -/
theorem Line.indent (h : Line a s) : Line ("  " ++ a) s := by
  refine ⟨h.spells.after_blanks (by decide), ?_⟩
  rw [String.toList_append, mem_append, not_or]
  exact ⟨by decide, h.flat⟩

/-- The lines of a sequence are lines. -/
theorem Lines.frame (isSeq : Bool) (h : Lines lines s) :
    Lines (frameLines isSeq lines) (frameSorts isSeq s) := by
  cases isSeq with
  | false => exact h
  | true =>
    have hhead : Line "(seq" [.opening, .atom "seq"] :=
      ⟨(spells_atom (by decide)).opening, by decide⟩
    have hbody : Lines (lines.map ("  " ++ ·)) s := by
      obtain ⟨parts, hall, rfl⟩ := h
      exact ⟨parts, forall₂_map_left_iff.mpr (hall.imp fun _ _ hline => hline.indent), rfl⟩
    have hlast : Line ")" [.closing] := ⟨spells_closing, by decide⟩
    exact (hhead.singleton.append hbody).append hlast.singleton

/-- **Lines with a space between them** are one line. -/
theorem Lines.intercalate (h : Lines lines s) : Line (String.intercalate " " lines) s := by
  obtain ⟨parts, hall, rfl⟩ := h
  induction hall with
  | nil => exact ⟨spells_empty, by decide⟩
  | @cons line part lines parts hline hrest ih =>
    cases hrest with
    | nil =>
      rw [String.intercalate_singleton, flatten_singleton]
      exact hline
    | cons =>
      rw [String.intercalate_cons_cons, String.append_assoc, flatten_cons]
      refine ⟨hline.spells.append (ih.spells.after_blanks (by decide))
        (Delimits.append (by decide) (by decide) _), ?_⟩
      simp only [String.toList_append, mem_append, not_or]
      exact ⟨hline.flat, by decide, ih.flat⟩

/-- There is no newline to be turned into a space. -/
theorem Lines.onOneLine (h : Lines lines s) : Line (onOneLine lines) s := by
  have hsame : Text.onOneLine lines = String.intercalate " " lines := by
    refine String.toList_inj.mp ?_
    rw [Text.onOneLine, String.toList_map]
    refine (map_congr_left fun c hc => ?_).trans (map_id _)
    exact if_neg fun heq : c = '\n' => h.intercalate.flat (heq ▸ hc)
  rw [hsame]
  exact h.intercalate

/-- A line break separates tokens. -/
theorem Lines.unlines (h : Lines lines s) : Spells (unlines lines) s := by
  obtain ⟨parts, hall, rfl⟩ := h
  induction hall with
  | nil => exact spells_empty
  | @cons line part lines parts hline _ ih =>
    rw [Text.unlines, map_cons, String.join_cons, String.append_assoc, flatten_cons]
    exact hline.spells.append (ih.after_blanks (by decide))
      (Delimits.append (by decide) (by decide) _)

end Lines

end Text

open Text

/-! ## Trees -/

mutual

/-- The parentheses and atoms of an expression. -/
def Exp.sorts : Exp → List Token.Sort
  | .const n => [.atom (toString n)]
  | .name l => formSorts "name" [.atom l.name]
  | .temp t => if t.isFramePointer then [.atom "fp"] else formSorts "temp" [.atom t.name]
  | .binop op l r => formSorts "binop" (.atom op.name :: (l.sorts ++ r.sorts))
  | .not e => formSorts "not" e.sorts
  | .mem e => formSorts "mem" e.sorts
  | .call f args => formSorts "call" (f.sorts ++ Exp.sortsAll args)
  | .eseq s e => formSorts "eseq" (frameSorts s.isSeq s.plainSorts ++ e.sorts)

/-- The parentheses and atoms of expressions, one after the other. -/
def Exp.sortsAll : List Exp → List Token.Sort
  | [] => []
  | e :: es => e.sorts ++ Exp.sortsAll es

/-- The parentheses and atoms of the plain statements of a statement. -/
def Stm.plainSorts : Stm → List Token.Sort
  | .move dst src => formSorts "move" (dst.sorts ++ src.sorts)
  | .exp e => formSorts "exp" e.sorts
  | .jump l => formSorts "jump" [.atom l.name]
  | .cjump rel l r target =>
    formSorts "cjump" (.atom rel.name :: (l.sorts ++ (r.sorts ++ [.atom target.name])))
  | .label l => formSorts "label" [.atom l.name]
  | .seq a b => a.plainSorts ++ b.plainSorts

end

/-- The parentheses and atoms of a statement. -/
def Stm.sorts (s : Stm) : List Token.Sort := frameSorts s.isSeq s.plainSorts

/-- The node has **printable** names: names are atoms, and no temp but the frame pointer
is called `fp`. -/
def Node.Printable : Node → Prop
  | .exp (.name l) => IsAtom l.name
  | .exp (.temp t) => t.isFramePointer = false → IsAtom t.name ∧ t.name ≠ "fp"
  | .stm (.jump l) => IsAtom l.name
  | .stm (.cjump _ _ _ l) => IsAtom l.name
  | .stm (.label l) => IsAtom l.name
  | _ => True

theorem BinOp.isAtom_name (op : BinOp) : IsAtom op.name := by cases op <;> decide

theorem RelOp.isAtom_name (rel : RelOp) : IsAtom rel.name := by cases rel <;> decide

theorem Exp.printArgs_eq (es : List Exp) :
    Exp.printArgs es = String.join ((es.map Exp.print).map (" " ++ ·)) := by
  induction es with
  | nil => rfl
  | cons e es ih => rw [Exp.printArgs, ih, map_cons, map_cons, String.join_cons]

mutual

/-- **The line of an expression** spells its parentheses and atoms. -/
theorem Exp.line_print (e : Exp) (h : ∀ n ∈ e.nodes, n.Printable) : Line e.print e.sorts := by
  cases e with
  | const n => exact (isAtom_toString n.toInt).line
  | name l =>
    have hl : IsAtom l.name := h _ mem_cons_self
    exact hl.line.singleton.form_of_eq (by decide) (by simp [Exp.print, form, ← String.toList_inj])
  | temp t =>
    rw [Exp.print, Temp.print, Exp.sorts]
    split
    · exact IsAtom.line (by decide)
    · next hfp =>
      have ht : IsAtom t.name := (h _ mem_cons_self (Bool.eq_false_iff.mpr hfp)).1
      exact ht.line.singleton.form_of_eq (by decide) (by simp [form, ← String.toList_inj])
  | binop op l r =>
    obtain ⟨-, hleft, hright⟩ := Node.forall_mem_parts.mp h
    have hl := l.line_print hleft
    have hr := r.line_print hright
    exact (Lines.cons op.isAtom_name.line (.cons hl hr.singleton)).form_of_eq (by decide)
      (by simp [Exp.print, form, ← String.toList_inj])
  | not e | mem e =>
    have he := e.line_print (forall_mem_cons.mp h).2
    exact he.singleton.form_of_eq (by decide) (by simp [Exp.print, form, ← String.toList_inj])
  | call f args =>
    obtain ⟨-, hleft, hright⟩ := Node.forall_mem_parts.mp h
    have hf := f.line_print hleft
    have hargs := Exp.lines_print args hright
    refine (Lines.cons hf hargs).form_of_eq (by decide) ?_
    rw [Exp.print, Exp.printArgs_eq]
    simp [form, ← String.toList_inj]
  | eseq s e =>
    obtain ⟨-, hleft, hright⟩ := Node.forall_mem_parts.mp h
    have hs := s.lines_plainLines hleft
    have he := e.line_print hright
    exact (Lines.cons (hs.frame s.isSeq).onOneLine he.singleton).form_of_eq (by decide)
      (by simp [Exp.print, form, ← String.toList_inj])

theorem Exp.lines_print (es : List Exp) (h : ∀ n ∈ Exp.nodesAll es, n.Printable) :
    Lines (es.map Exp.print) (Exp.sortsAll es) := by
  cases es with
  | nil => exact lines_nil
  | cons e es =>
    rw [Exp.nodesAll, forall_mem_append] at h
    exact .cons (e.line_print h.1) (Exp.lines_print es h.2)

/-- **The lines of a statement** spell the parentheses and atoms of its plain statements. -/
theorem Stm.lines_plainLines (s : Stm) (h : ∀ n ∈ s.nodes, n.Printable) :
    Lines s.plainLines s.plainSorts := by
  cases s with
  | move dst src =>
    obtain ⟨-, hleft, hright⟩ := Node.forall_mem_parts.mp h
    have hdst := dst.line_print hleft
    have hsrc := src.line_print hright
    exact ((Lines.cons hdst hsrc.singleton).form_of_eq (by decide)
      (by simp [form, ← String.toList_inj])).singleton
  | exp e =>
    have he := e.line_print (forall_mem_cons.mp h).2
    exact (he.singleton.form_of_eq (by decide) (by simp [form, ← String.toList_inj])).singleton
  | jump l | label l =>
    have hl : IsAtom l.name := h _ mem_cons_self
    exact (hl.line.singleton.form_of_eq (by decide) (by simp [form, ← String.toList_inj])).singleton
  | cjump rel l r target =>
    obtain ⟨htarget, hleft, hright⟩ := Node.forall_mem_parts.mp h
    have hl := l.line_print hleft
    have hr := r.line_print hright
    exact ((Lines.cons rel.isAtom_name.line (.cons hl (.cons hr htarget.line.singleton))).form_of_eq
      (by decide) (by simp [form, ← String.toList_inj])).singleton
  | seq a b =>
    obtain ⟨-, hleft, hright⟩ := Node.forall_mem_parts.mp h
    exact (a.lines_plainLines hleft).append (b.lines_plainLines hright)

end

/-- **The scanner finds the parentheses and atoms of a tree** in its text. -/
theorem Stm.sorts_tokens_print {s : Stm} (h : ∀ n ∈ s.nodes, n.Printable) :
    (tokens s.print).map Token.sort = s.sorts :=
  ((s.lines_plainLines h).frame s.isSeq).unlines.tokens

end TreeBackend
