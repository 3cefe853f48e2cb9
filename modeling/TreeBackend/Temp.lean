import TreeBackend.Machine.Register
import Std.Data.ExtTreeMap
import Std.Data.ExtTreeSet

/-!
# Temps and labels

A **temp** is a symbolic register: its place among the temps of a session, and
what the temp stands for. Most temps are plain and carry the name they were asked
for; a holder keeps a value that canonicalization evaluated early; the six fixed
temps are the machine's own registers, and one temp is the frame pointer. The
place alone tells the temps of a session apart, so temps are ordered by it first.
A temp is known by its id, which is its place in thirty-two bits.

Trees and code refer to a **label** by its name. The session that hands out labels
keeps an id for each.
-/

namespace TreeBackend

/-- What a temp stands for besides its place. -/
inductive Temp.Kind where
  /-- An ordinary temp, with the name it is shown by. -/
  | plain (name : String)
  /-- A value that canonicalization evaluated early. -/
  | holder
  /-- A temp that is a machine register. -/
  | fixed (register : Register)
  /-- The frame pointer. -/
  | framePointer
  deriving DecidableEq, Repr

/-- A symbolic register. -/
structure Temp where
  /-- How many temps of the session come before this one. -/
  index : Nat
  kind : Temp.Kind
  deriving DecidableEq, Repr

namespace Temp

namespace Kind

/-- The name of a temp of this kind. -/
def name : Kind → String
  | plain name => name
  | holder => "holder"
  | fixed r => r.name
  | framePointer => "fp"

/-- The place of a kind among the kinds; all plain temps share the first. -/
def rank : Kind → Nat
  | plain _ => 0
  | holder => 1
  | fixed r => 2 + r.color
  | framePointer => 8

/-- Rank and name determine the kind. -/
theorem eq_of_rank_of_name {k l : Kind} (hrank : k.rank = l.rank) (hname : k.name = l.name) :
    k = l := by
  cases k <;> cases l <;> simp only [rank, name] at hrank hname <;>
    first
    | rfl
    | (subst hname; rfl)
    | (rename_i r s; rw [Register.color_injective (r := r) (s := s) (by omega)])
    | (rename_i r; have := r.color_lt_six; omega)
    | omega

end Kind

/-- The **id** of a temp: its place in thirty-two bits. -/
def id (t : Temp) : UInt32 := .ofNat t.index

/-- The temp's name, without its id. -/
def name (t : Temp) : String := t.kind.name

/-- The temp as shown to a reader: `r`, its name, its id. -/
def display (t : Temp) : String := "r" ++ t.name ++ toString t.id

/-- The temp that is the machine register `r`. -/
def fixed (r : Register) : Temp := ⟨r.color, .fixed r⟩

/-- The temp that is the frame pointer. -/
def framePointer : Temp := ⟨6, .framePointer⟩

/-- Whether the temp holds a value canonicalization evaluated early. -/
def isHolder (t : Temp) : Bool := t.kind == .holder

/-- Whether the temp is the frame pointer. -/
def isFramePointer (t : Temp) : Bool := t.kind == .framePointer

/-- The machine register the temp is **pinned** to, if it is fixed. -/
def pinned? (t : Temp) : Option Register :=
  match t.kind with
  | .fixed r => some r
  | _ => none

/-- Temps are ordered by place; kind and name only separate temps that do
not belong to one session. -/
instance : Ord Temp where
  compare := compareLex (compareOn Temp.index)
    (compareLex (compareOn fun t => t.kind.rank) (compareOn Temp.name))

theorem compare_def (a b : Temp) :
    compare a b = ((compare a.index b.index).then
      ((compare a.kind.rank b.kind.rank).then (compare a.name b.name))) := rfl

instance : Std.TransOrd Temp :=
  inferInstanceAs (Std.TransCmp (compareLex (compareOn Temp.index)
    (compareLex (compareOn fun t => t.kind.rank) (compareOn Temp.name))))

instance : Std.LawfulEqOrd Temp where
  eq_of_compare {a b} h := by
    rw [compare_def, Ordering.then_eq_eq, Ordering.then_eq_eq, Std.LawfulEqOrd.compare_eq_iff_eq,
      Std.LawfulEqOrd.compare_eq_iff_eq, Std.LawfulEqOrd.compare_eq_iff_eq] at h
    cases a
    cases b
    simp only [Temp.mk.injEq]
    exact ⟨h.1, Kind.eq_of_rank_of_name h.2.1 h.2.2⟩

end Temp

/-- A finite set of temps, with extensional equality. -/
abbrev TempSet := Std.ExtTreeSet Temp

/-- The temps of a list, as a set. -/
def TempSet.ofList (temps : List Temp) : TempSet := Std.ExtTreeSet.ofList temps

/-- A finite map from temps, with extensional equality. -/
abbrev TempMap (α : Type) := Std.ExtTreeMap Temp α

/-- A place in code that control can be sent to. -/
structure Label where
  name : String
  deriving DecidableEq, Repr

/-- The first label of a list that was in the list, or in `seen`, before. -/
def Label.firstRepeated (seen : List Label) : List Label → Option Label
  | [] => none
  | l :: rest => if l ∈ seen then some l else firstRepeated (l :: seen) rest

end TreeBackend
