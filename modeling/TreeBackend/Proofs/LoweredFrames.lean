import TreeBackend.Proofs.FrameAccess
import TreeBackend.Proofs.LoweredMethods
import TreeBackend.Proofs.SessionGrowth

/-!
# The frames of lowered trees

A method keeps its variables in the frame. The formals in memory lie below the
frame pointer, the locals above it, one word each, and these are the first words of
the frame (`Frame.Laid.within_of_find?`).
-/

namespace TreeBackend

open List Program

/-! ## The words of variables -/

namespace Frame

/-- How many words of the frame are in use: those of formals in memory, and those of
locals. -/
def wordCount (f : Frame) : Nat := f.formals.length - f.maxRegisterFormals + f.locals.length

/-- The offsets of the words in use, which are the first of the frame. -/
def wordsInUse (f : Frame) : Set Int64 := {d | ∃ j < f.wordCount, d = f.wordAt j}

variable {frame : Frame} {formals locals : List String} {s : Session} {name : String} {k : Nat}

theorem Laid.wordCount_eq {slots : List Int64} (h : frame.Laid formals locals slots s) :
    frame.wordCount = formals.length - frame.maxRegisterFormals + locals.length := by
  rw [wordCount, h.placed.length_formals, ← h.locals_eq, length_map]

/-- A word above the frame pointer is one of the frame, after those of formals. -/
theorem Laid.wordAt_add {slots : List Int64} (h : frame.Laid formals locals slots s) (k : Nat) :
    frame.wordAt (formals.length - frame.maxRegisterFormals + k) = frame.wordSize * .ofNat k := by
  rw [wordAt, Int64.ofNat_add, Int64.mul_add, ← h.formalTop, Int64.add_comm, Int64.add_sub_cancel]

/-- **The place of a variable** is a temp, or one of the words in use. -/
theorem Laid.within_of_find? (h : frame.Laid formals locals [] s) {access : Access}
    (hfind : frame.find? name = some access) :
    access.toExp.Within (.frame frame.wordsInUse ∅ ∅) := by
  cases access with
  | register t =>
    obtain ⟨name, hkind, -⟩ := h.drawn.formals t (mem_registerFormals hfind)
    rintro rfl
    cases hkind
  | frame offset =>
    refine Exp.within_frameWord ?_
    show ∃ j < frame.wordCount, offset = frame.wordAt j
    rw [h.wordCount_eq]
    obtain hlocal | hformal := mem_append.mp (mem_placements hfind)
    · obtain ⟨l, hl, heq⟩ := mem_map.mp hlocal
      cases heq
      have hword := h.words.mem_iff.mp (mem_append_left _ (mem_map_of_mem hl))
      obtain ⟨k, hk, heq⟩ := mem_map.mp hword
      exact ⟨_, Nat.add_lt_add_left (mem_range.mp hk) _, heq.symm.trans (h.wordAt_add k).symm⟩
    · -- a formal in memory has one of the first words
      rw [h.placed.formals_eq] at hformal
      obtain hregister | hword := mem_append.mp (of_mem_zip hformal).2
      · obtain ⟨t, -, heq⟩ := mem_map.mp hregister
        cases heq
      · obtain ⟨d, hd, heq⟩ := mem_map.mp hword
        cases heq
        obtain ⟨j, hj, rfl⟩ := mem_map.mp hd
        exact ⟨j, Nat.lt_add_right _ (mem_range.mp hj), rfl⟩

end Frame

/-- What is in scope is kept in temps and in the given words. -/
def Scope.KeptIn (s : Scope) (words : Set Int64) : Prop :=
  ∀ {name : String} {access : Access}, s.frame.find? name = some access →
    access.toExp.Within (.frame words ∅ ∅)

theorem Scope.KeptIn.lookup {s : Scope} {words : Set Int64} (hs : s.KeptIn words) {name : String}
    {e : Exp} (h : s.lookup name = .ok e) : e.Within (.frame words ∅ ∅) := by
  obtain ⟨access, haccess, rfl⟩ | ⟨c, index, object, -, -, -, hthis, rfl⟩ := of_lookup h
  · exact hs haccess
  · obtain ⟨-, access, -, haccess, rfl⟩ := of_this hthis
    exact Exp.within_binop (hs haccess) trivial

end TreeBackend
