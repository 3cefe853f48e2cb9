import Mathlib.Data.List.Nodup

/-!
# First mentions

Names are met one after the other and entered in a list, each where it is met
first: the temps of a method as it is read, and the methods of a class with those
it inherits. Entering more names only adds to the end, and no name is entered twice.
-/

namespace TreeBackend

open List

variable {x : String}

/-- A name is **mentioned**: it is entered at the end of a list, unless it stands there
already. -/
def mention (names : List String) (name : String) : List String :=
  if name ∈ names then names else names ++ [name]

/-- The names, each where it is **mentioned first**. -/
def firstMentions (mentions : List String) : List String := mentions.foldl mention []

section Mention

variable {names mentions : List String} {name : String}

theorem prefix_mention (names : List String) (name : String) : names <+: mention names name := by
  unfold mention
  split
  · exact prefix_rfl
  · exact prefix_append _ _

/-- Entering adds to the end. -/
theorem prefix_foldl_mention (names mentions : List String) :
    names <+: mentions.foldl mention names := by
  induction mentions generalizing names with
  | nil => exact prefix_rfl
  | cons name mentions ih => exact (prefix_mention names name).trans (ih _)

/-- **More mentions** leave the first mentions where they are. -/
theorem prefix_firstMentions_append (mentions more : List String) :
    firstMentions mentions <+: firstMentions (mentions ++ more) := by
  rw [firstMentions, firstMentions, foldl_append]
  exact prefix_foldl_mention _ _

end Mention

end TreeBackend
