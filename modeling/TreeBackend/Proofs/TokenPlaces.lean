import TreeBackend.Proofs.PrintedTokens

/-!
# Where tokens stand

Every token remembers the place of its first character. What a place is can be said of the text
before it: its line is told by the newlines of that text, and its column by the characters since
the last of them (`Position.following`). A token stands in a text where its own characters follow a
text that has the tokens before it (`exists_place`), and the places of two tokens in a row are
different (`place_ne_of_next`).
-/

namespace TreeBackend

open List

/-! ## Lines and columns -/

/-- The place that **follows** a text. -/
def Position.following (text : List Char) : Position :=
  ⟨1 + text.count '\n', 1 + (text.reverse.takeWhile (· ≠ '\n')).length⟩

theorem Position.foldl_after (text : List Char) :
    text.foldl Position.after .start = .following text := by
  induction text using List.reverseRecOn with
  | nil => rfl
  | append_singleton text c ih =>
    rw [foldl_append, ih]
    by_cases hc : c = '\n'
    · simp [Position.following, Position.after, hc, Nat.add_assoc]
    · simp [Position.following, Position.after, hc, Nat.add_comm]

/-- A longer text is followed by another place. -/
theorem Position.following_append_ne (text : List Char) {more : List Char} (h : more ≠ []) :
    Position.following (text ++ more) ≠ .following text := by
  intro heq
  obtain ⟨hline, hcolumn⟩ := Position.mk.inj heq
  rw [count_append] at hline
  have hnone : '\n' ∉ more := count_eq_zero.mp (by omega)
  rw [reverse_append, takeWhile_append_of_pos, length_append, length_reverse] at hcolumn
  · have := length_pos_iff.mpr h
    omega
  · intro c hc
    refine decide_eq_true fun hnewline => hnone ?_
    rw [← hnewline]
    exact mem_reverse.mp hc

namespace Text

/-! ## The characters of a token -/

/-- The token as it is written. -/
def Token.Sort.chars : Token.Sort → List Char
  | opening => ['(']
  | closing => [')']
  | atom text => text.toList

namespace Scan

/-- The token **stands** in the characters that are scanned from a place on: its own characters
follow such that the scanner finds the tokens before it in. -/
def Stands (state : Scan) (p : Position) (cs : List Char) (before : List Token) (token : Token) :
    Prop :=
  ∃ pre post, cs = pre ++ (token.sort.chars ++ post) ∧ state.run p pre = before ∧
    token.position = pre.foldl Position.after p

variable {state state' : Scan} {p : Position} {c : Char} {cs : List Char} {token : Token}
  {before new after : List Token}

theorem Stands.cons (hstep : state.step p c = (new, state'))
    (h : state'.Stands (p.after c) cs before token) :
    state.Stands p (c :: cs) (new ++ before) token := by
  obtain ⟨pre, post, rfl, rfl, hplace⟩ := h
  refine ⟨c :: pre, post, rfl, ?_, hplace⟩
  rw [Scan.run, hstep]

/-- A token that is found either **ends** an atom that was begun before, or stands in what is
scanned. -/
def Finds (state : Scan) (p : Position) (cs : List Char) (before : List Token) (token : Token) :
    Prop :=
  (∃ reversed more post, state = .atom token.position reversed ∧ before = [] ∧
    cs = more ++ post ∧ token.sort.chars = reversed.reverse ++ more) ∨
  state.Stands p cs before token

theorem Finds.stands (h : state.Finds p cs before token) (hstate : state.pending = []) :
    state.Stands p cs before token := by
  obtain ⟨_, _, _, rfl, -⟩ | h := h
  · cases hstate
  · exact h

/-- One character between tokens. -/
theorem finds_begin (hrest : ∀ {state : Scan} {before : List Token},
      state.run (p.after c) cs = before ++ token :: after → state.Finds (p.after c) cs before token)
    (h : gap.run p (c :: cs) = before ++ token :: after) : gap.Stands p (c :: cs) before token := by
  -- a token of one character is the one that is asked for, or stands before it
  have hsingle : ∀ sort : Token.Sort, sort.chars = [c] → gap.step p c = ([⟨sort, p⟩], gap) →
      gap.Stands p (c :: cs) before token := by
    intro sort hchars hstep
    rw [Scan.run, hstep] at h
    cases before with
    | nil =>
      cases h
      exact ⟨[], cs, by rw [hchars]; rfl, rfl, rfl⟩
    | cons first before =>
      obtain ⟨rfl, hlater⟩ := List.cons.inj h
      exact ((hrest hlater).stands rfl).cons hstep
  have hstep : gap.step p c = begin p c := rfl
  unfold begin at hstep
  split at hstep
  · rw [Scan.run, hstep] at h
    exact ((hrest h).stands rfl).cons hstep
  · split at hstep
    · rw [Scan.run, hstep] at h
      exact ((hrest h).stands rfl).cons hstep
    · split at hstep
      · next hc => exact hsingle .opening (by rw [hc]; rfl) hstep
      · split at hstep
        · next hc => exact hsingle .closing (by rw [hc]; rfl) hstep
        · rw [Scan.run, hstep] at h
          obtain ⟨_, more, post, heq, rfl, rfl, hchars⟩ | h := hrest h
          · obtain ⟨hplace, rfl⟩ := Scan.atom.inj heq
            exact ⟨[], post, by rw [hchars]; rfl, rfl, hplace.symm⟩
          · exact h.cons hstep

theorem finds_of_run (h : state.run p cs = before ++ token :: after) :
    state.Finds p cs before token := by
  induction cs generalizing state p before with
  | nil =>
    cases state with
    | gap | comment => simp [Scan.run, Scan.pending] at h
    | atom start reversed =>
      cases before with
      | nil =>
        cases h
        exact .inl ⟨reversed, [], [], rfl, rfl, rfl, by simp [Token.Sort.chars]⟩
      | cons => simp [Scan.run, Scan.pending] at h
  | cons c cs ih =>
    cases state with
    | gap => exact .inr (finds_begin ih h)
    | comment =>
      by_cases hc : c = '\n'
      · have hstep : comment.step p c = ([], gap) := if_pos hc
        rw [Scan.run, hstep] at h
        exact .inr (((ih h).stands rfl).cons hstep)
      · have hstep : comment.step p c = ([], comment) := if_neg hc
        rw [Scan.run, hstep] at h
        exact .inr (((ih h).stands rfl).cons hstep)
    | atom start reversed =>
      by_cases hc : isDelimiter c = true
      · -- the atom ends here, and the scanner goes on as if between tokens
        have hends : ∀ {pre post : List Char}, c :: cs = pre ++ post →
            (atom start reversed).run p pre = (atom start reversed).pending ++ gap.run p pre := by
          intro pre post heq
          refine run_atom start p reversed fun d hd => ?_
          cases pre with
          | nil => cases hd
          | cons => cases hd; cases heq; exact hc
        rw [hends (append_nil _).symm] at h
        cases before with
        | nil =>
          cases h
          exact .inl ⟨reversed, [], c :: cs, rfl, rfl, rfl, by simp [Token.Sort.chars]⟩
        | cons first before =>
          obtain ⟨rfl, hlater⟩ := List.cons.inj h
          obtain ⟨pre, post, heq, rfl, hplace⟩ := finds_begin ih hlater
          exact .inr ⟨pre, post, heq, hends heq, hplace⟩
      · have hstep : (atom start reversed).step p c = ([], atom start (c :: reversed)) := if_neg hc
        rw [Scan.run, hstep] at h
        obtain ⟨_, more, post, heq, rfl, rfl, hchars⟩ | h := ih h
        · cases heq
          exact .inl ⟨reversed, c :: more, post, rfl, rfl, rfl, by simp [hchars]⟩
        · exact .inr (h.cons hstep)

end Scan

/-! ## The places of tokens -/

variable {text : String} {before after : List Token} {token next : Token}

/-- **Where a token stands**: after a text that has the tokens before it. -/
theorem exists_place (h : tokens text = before ++ token :: after) :
    ∃ pre post : List Char, text.toList = pre ++ (token.sort.chars ++ post) ∧
      tokens (String.ofList pre) = before ∧ token.position = .following pre := by
  obtain ⟨pre, post, htext, hbefore, hplace⟩ := (Scan.finds_of_run h).stands rfl
  refine ⟨pre, post, htext, ?_, hplace.trans (Position.foldl_after pre)⟩
  rw [tokens, String.toList_ofList]
  exact hbefore

theorem chars_ne_nil (h : token ∈ tokens text) : token.sort.chars ≠ [] := by
  cases hsort : token.sort with
  | opening | closing => exact cons_ne_nil _ _
  | atom a =>
    have hatom := allAtoms_tokens text token h a hsort
    exact fun hnil => hatom.1 (String.toList_eq_nil_iff.mp hnil)

/-- **The next token stands at another place.** -/
theorem place_ne_of_next (h : tokens text = before ++ token :: next :: after) :
    next.position ≠ token.position := by
  have hmem : token ∈ tokens text := h ▸ mem_append_right _ mem_cons_self
  rw [← singleton_append, ← append_assoc] at h
  obtain ⟨pre, post, -, hbefore, hplace⟩ := exists_place h
  obtain ⟨pre', post', hpre, -, hplace'⟩ := exists_place hbefore
  rw [String.toList_ofList] at hpre
  rw [hplace, hplace', hpre]
  exact Position.following_append_ne pre' (append_ne_nil_of_left_ne_nil (chars_ne_nil hmem) post')

end Text

end TreeBackend
