import TreeBackend.Error
import TreeBackend.Text.Blank

/-!
# Tokens

The text of a tree is a row of parentheses and atoms. Blanks separate atoms, a
semicolon starts a comment that lasts to the end of its line, and an atom is a
longest run of any other characters. Each token remembers where it starts.
-/

namespace TreeBackend.Text

/-- The three sorts of token. -/
inductive Token.Sort where
  | opening
  | closing
  | atom (text : String)
  deriving DecidableEq, Repr

/-- A token and the place of its first character. -/
structure Token where
  sort : Token.Sort
  position : Position
  deriving DecidableEq, Repr

/-- Whether a character ends an atom. -/
def isDelimiter (c : Char) : Bool := isBlank c || c == '(' || c == ')' || c == ';'

/-- What the scanner is in the middle of. -/
inductive Scan where
  /-- Between tokens. -/
  | gap
  /-- In a comment. -/
  | comment
  /-- In an atom that started at a place; its characters so far, last first. -/
  | atom (start : Position) (reversed : List Char)

namespace Scan

/-- The token that the scanner is in the middle of. -/
def pending : Scan → List Token
  | atom start reversed => [⟨.atom (String.ofList reversed.reverse), start⟩]
  | gap | comment => []

/-- What a character between tokens is: a token of its own, or the start of
something longer. -/
def begin (p : Position) (c : Char) : List Token × Scan :=
  if isBlank c then ([], gap)
  else if c = ';' then ([], comment)
  else if c = '(' then ([⟨.opening, p⟩], gap)
  else if c = ')' then ([⟨.closing, p⟩], gap)
  else ([], atom p [c])

/-- The tokens that one more character completes, and what the scanner is in
the middle of after it. -/
def step (state : Scan) (p : Position) (c : Char) : List Token × Scan :=
  match state with
  | gap => begin p c
  | comment => if c = '\n' then ([], gap) else ([], comment)
  | atom start reversed =>
    if isDelimiter c then ((atom start reversed).pending ++ (begin p c).1, (begin p c).2)
    else ([], atom start (c :: reversed))

/-- The tokens of the characters from a place on. -/
def run : Scan → Position → List Char → List Token
  | state, _, [] => state.pending
  | state, p, c :: cs => (state.step p c).1 ++ run (state.step p c).2 (p.after c) cs

end Scan

/-- The **tokens** of a text, in order. -/
def tokens (text : String) : List Token := Scan.gap.run Position.start text.toList

end TreeBackend.Text
