/-!
# Sets of colours

Sixty-four colours are enough for every register file the allocator is asked
about, so a set of colours is one machine word: bit `c` says whether colour
`c` belongs to the set. Colours from sixty-four on belong to no set, and
inserting one changes nothing.
-/

namespace TreeBackend

/-- A set of colours below sixty-four. -/
structure ColorSet where
  /-- Bit `c` is set when colour `c` belongs to the set. -/
  bits : BitVec 64
  deriving DecidableEq, Repr

namespace ColorSet

/-- The set without colours. -/
def empty : ColorSet := ⟨0⟩

/-- The colours below `count`; all sixty-four when `count` is larger. -/
def first (count : Nat) : ColorSet :=
  if count ≥ 64 then ⟨BitVec.allOnes 64⟩ else ⟨BitVec.ofNat 64 ((1 <<< count) - 1)⟩

/-- Whether a colour belongs to the set. -/
def contains (s : ColorSet) (color : Nat) : Bool := color < 64 && s.bits.getLsbD color

/-- The set with a colour added; a colour from sixty-four on is ignored. -/
def insert (s : ColorSet) (color : Nat) : ColorSet :=
  if color < 64 then ⟨s.bits ||| BitVec.twoPow 64 color⟩ else s

/-- The set with a colour taken out; a colour from sixty-four on is ignored. -/
def erase (s : ColorSet) (color : Nat) : ColorSet :=
  if color < 64 then ⟨s.bits &&& ~~~BitVec.twoPow 64 color⟩ else s

/-- The colours of the set, in ascending order. -/
def toList (s : ColorSet) : List Nat := (List.range 64).filter s.contains

/-- The number of colours in the set. -/
def size (s : ColorSet) : Nat := s.toList.length

/-- Whether the set has no colours. -/
def isEmpty (s : ColorSet) : Bool := s.bits == 0

/-- The **lowest free colour**: the least colour of `s` outside `taken`. -/
def lowestExcluding (s taken : ColorSet) : Option Nat :=
  s.toList.find? fun color => !taken.contains color

/-- A colour that belongs to a set is below sixty-four. -/
theorem lt_of_contains {s : ColorSet} {c : Nat} (h : s.contains c = true) : c < 64 := by
  simp only [contains, Bool.and_eq_true, decide_eq_true_eq] at h
  exact h.1

@[simp] theorem contains_empty (c : Nat) : empty.contains c = false := by
  simp [contains, empty]

/-- Insertion adds one colour, if it fits. -/
@[simp] theorem contains_insert (s : ColorSet) (c d : Nat) :
    (s.insert c).contains d = (s.contains d || (decide (c = d) && decide (d < 64))) := by
  unfold insert
  split
  · by_cases hd : d < 64
    · simp [contains, hd, eq_comm]
    · simp [contains, hd]
  · by_cases hcd : c = d
    · subst hcd
      simp_all [contains]
    · simp [hcd]

/-- Erasing takes out one colour. -/
@[simp] theorem contains_erase (s : ColorSet) (c d : Nat) :
    (s.erase c).contains d = (s.contains d && !decide (c = d)) := by
  unfold erase
  split
  · by_cases hd : d < 64
    · simp [contains, hd, eq_comm]
    · simp [contains, hd]
  · by_cases hcd : c = d
    · subst hcd
      simp_all [contains]
    · simp [hcd]

@[simp] theorem mem_toList {s : ColorSet} {c : Nat} :
    c ∈ s.toList ↔ s.contains c = true := by
  simp only [toList, List.mem_filter, List.mem_range]
  exact ⟨fun h => h.2, fun h => ⟨lt_of_contains h, h⟩⟩

/-- The first `count` colours are the colours below `count`. -/
@[simp] theorem contains_first (count c : Nat) :
    (first count).contains c = (decide (c < count) && decide (c < 64)) := by
  unfold first contains
  by_cases hc : c < 64
  · split
    · next h =>
      rw [BitVec.getLsbD_allOnes]
      simp [hc, Nat.lt_of_lt_of_le hc h]
    · rw [BitVec.getLsbD_ofNat, Nat.one_shiftLeft, Nat.testBit_two_pow_sub_one]
      simp [hc]
  · simp [hc]

/-- The lowest free colour is free and belongs to the set. -/
theorem lowestExcluding_eq_some {s taken : ColorSet} {c : Nat}
    (h : s.lowestExcluding taken = some c) :
    s.contains c = true ∧ taken.contains c = false := by
  have hmem := List.mem_of_find?_eq_some h
  have hfree := List.find?_some h
  exact ⟨mem_toList.mp hmem, by simpa using hfree⟩

/-- No colour is free exactly when the set is covered. -/
theorem lowestExcluding_eq_none_iff {s taken : ColorSet} :
    s.lowestExcluding taken = none ↔ ∀ c, s.contains c = true → taken.contains c = true := by
  simp [lowestExcluding]

end ColorSet

end TreeBackend
