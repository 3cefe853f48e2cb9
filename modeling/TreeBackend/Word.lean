/-!
# Sixty-four-bit words

Constants and offsets are signed words of sixty-four bits; sums and products of
offsets wrap around. This module holds the range of a word and the numerals that
denote one.
-/

namespace TreeBackend.Word

/-- The least signed word. -/
def min : Int := -0x8000000000000000

/-- The greatest signed word. -/
def max : Int := 0x7fffffffffffffff

/-- Whether an integer **fits** a signed word. -/
def fits (n : Int) : Bool := min ≤ n && n ≤ max

/-- The number an unsigned decimal numeral denotes: one digit or more, ASCII
digits only, most significant first. -/
def ofDigits? (digits : List Char) : Option Nat :=
  if digits.isEmpty || !digits.all Char.isDigit then none
  else some (digits.foldl (fun n c => 10 * n + (c.toNat - '0'.toNat)) 0)

/-- The word a **numeral** denotes: an optional sign, `+` or `-`, then digits,
and a value that fits. -/
def ofNumeral? (text : String) : Option Int64 :=
  let value? :=
    match text.toList with
    | '-' :: digits => (ofDigits? digits).map fun n => -(n : Int)
    | '+' :: digits => (ofDigits? digits).map Int.ofNat
    | digits => (ofDigits? digits).map Int.ofNat
  (value?.filter fits).map Int64.ofInt

theorem fits_iff {n : Int} : fits n = true ↔ min ≤ n ∧ n ≤ max := by
  rw [fits, Bool.and_eq_true, decide_eq_true_eq, decide_eq_true_eq]

/-- A word has the value it was made of, if that fits. -/
theorem toInt_ofInt {n : Int} (h : fits n = true) : (Int64.ofInt n).toInt = n := by
  obtain ⟨hmin, hmax⟩ := fits_iff.mp h
  exact Int64.toInt_ofInt_of_le hmin (Int.lt_of_le_of_lt hmax (by decide))

/-- The values of words fit. -/
theorem fits_toInt (n : Int64) : fits n.toInt = true :=
  fits_iff.mpr ⟨n.le_toInt, Int.le_of_lt_add_one n.toInt_lt⟩

end TreeBackend.Word
