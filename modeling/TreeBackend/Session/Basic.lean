import TreeBackend.Error
import TreeBackend.Session.Stats

/-!
# Compilation sessions

A session hands out temps and labels and keeps count of what the stages do.
Temps are listed in the order they are asked for, after the six fixed registers
and the frame pointer. Labels are kept in two tables: their names in the order of
first mention, and for each name the id of its label, which is its place in the
first table in thirty-two bits. A *fresh* label takes the next number whose name
is not in use.

Stages run in `CompileM`, which keeps the session when a stage fails: temps
drawn and labels placed before the failure stay drawn and placed.
-/

namespace TreeBackend

/-- The names of the temps that every session has, in order. -/
def Temp.reservedNames : List String := Register.all.map Register.name ++ [framePointer.name]

/-- The state of one run of the back end. -/
structure Session where
  config : Config := {}
  /-- The names of the temps drawn so far, the last one first. -/
  tempNames : List String := Temp.reservedNames.reverse
  /-- The names of the labels mentioned so far, in the order of first mention. -/
  labelNames : List String := []
  /-- The id of each label mentioned so far, by the label's name. -/
  labelIds : List (String × UInt32) := []
  /-- The number the next fresh label is tried with. -/
  nextFresh : Nat := 0
  stats : Stats := {}

/-- Computations that draw from a session. -/
abbrev SessionM := StateM Session

/-- Computations that draw from a session and may fail; the session survives a
failure. -/
abbrev CompileM := ExceptT Error (StateM Session)

namespace Session

/-- A session in which nothing has happened yet. -/
def new (config : Config) : Session := { config }

/-- How many temps there are: the place of the next one. -/
def tempCount (s : Session) : Nat := s.tempNames.length

/-- The name of the temp with an id. -/
def tempName (s : Session) (id : UInt32) : String := s.tempNames.reverse[id.toNat]?.getD "?"

/-- The session with one more temp. -/
def withTemp (s : Session) (name : String) : Session := { s with tempNames := name :: s.tempNames }

/-- Draw the next temp, of the given kind. -/
def drawTemp (kind : Temp.Kind) : SessionM Temp := fun s =>
  (⟨s.tempCount, kind⟩, s.withTemp kind.name)

/-- Draw a plain temp shown by `name`. -/
def newTemp (name : String) : SessionM Temp := drawTemp (.plain name)

/-- Draw a temp to hold a value evaluated early. -/
def newHolder : SessionM Temp := drawTemp .holder

/-- The labels that have an id. -/
def labels (s : Session) : List Label := s.labelIds.map fun entry => ⟨entry.1⟩

/-- The id of the label called `name`, if it was mentioned. -/
def labelId? (s : Session) (name : String) : Option UInt32 := s.labelIds.lookup name

/-- The session with one more label, entered in both tables. -/
def withLabel (s : Session) (name : String) : Session :=
  { s with
    labelNames := s.labelNames ++ [name]
    labelIds := s.labelIds ++ [(name, .ofNat s.labelNames.length)] }

/-- The id of the label called `name`, which counts as mentioned from now on. -/
def namedId (name : String) : SessionM UInt32 := fun s =>
  match s.labelId? name with
  | some id => (id, s)
  | none => (.ofNat s.labelNames.length, s.withLabel name)

/-- The label called `name`. -/
def namedLabel (name : String) : SessionM Label := do
  let _ ← namedId name
  return ⟨name⟩

/-- The label that is fresh label number `n`. -/
def numbered (n : Nat) : Label := ⟨"L" ++ toString n⟩

/-- The first number, from `n` on, whose label is not in use. Among the first
`fuel` numbers or right after them there is one, when `fuel` is at least the
number of labels in use. -/
def firstFree (labels : List Label) : Nat → Nat → Nat
  | 0, n => n
  | fuel + 1, n => if numbered n ∈ labels then firstFree labels fuel (n + 1) else n

/-- The number of the next fresh label; the count goes on behind it. -/
def nextNumber : SessionM Nat := fun s =>
  let n := firstFree s.labels s.labels.length s.nextFresh
  (n, { s with nextFresh := n + 1 })

/-- The id of a **fresh label**: the next numbered label that was never
mentioned. -/
def freshId : SessionM UInt32 := do
  let n ← nextNumber
  namedId (numbered n).name

/-- A fresh label. -/
def freshLabel : SessionM Label := do
  let n ← nextNumber
  namedLabel (numbered n).name

theorem labelId?_eq_none_iff {s : Session} {name : String} :
    s.labelId? name = none ↔ ⟨name⟩ ∉ s.labels := by
  simp only [labelId?, labels, List.lookup_eq_none_iff, List.mem_map, Label.mk.injEq]
  grind

@[simp] theorem labels_withLabel (s : Session) (name : String) :
    (s.withLabel name).labels = s.labels ++ [⟨name⟩] := List.map_append

/-- A label that was not mentioned before is entered in the tables. -/
theorem run_namedLabel (name : String) (s : Session) :
    (namedLabel name).run s = (⟨name⟩, if ⟨name⟩ ∈ s.labels then s else s.withLabel name) := by
  show (_, (namedId name s).2) = _
  unfold namedId
  split
  · next id hid =>
    rw [if_pos]
    exact Classical.not_not.mp fun h => nomatch hid.symm.trans (labelId?_eq_none_iff.mpr h)
  · next hid => rw [if_neg (labelId?_eq_none_iff.mp hid)]

/-- Add to the session's statistics. -/
def count (add : Stats → Stats) : SessionM Unit := fun s =>
  ((), { s with stats := add s.stats })

end Session

end TreeBackend
