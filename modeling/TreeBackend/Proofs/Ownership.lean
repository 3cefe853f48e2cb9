import TreeBackend.Code.Instruction
import TreeBackend.Proofs.FreshLabels

/-!
# The temps of a session

Every stage works on temps that one session handed out: the fixed registers,
the frame pointer, and the plain temps and holders drawn so far. A temp is
told apart from all of these by being drawn *later*, which is what every
argument about a fresh temp comes down to.
-/

namespace TreeBackend

namespace Session

/-- **Ownership**: the temp is one that the session has handed out. There is
one fixed temp per machine register and one frame pointer; all others have a
number below the next one to be drawn. -/
def Owns (s : Session) (t : Temp) : Prop := match t.kind with
  | .fixed r => t = .fixed r
  | .framePointer => t = .framePointer
  | .plain _ | .holder => t.index < s.tempCount

instance (s : Session) : DecidablePred s.Owns := fun t => by
  unfold Owns
  cases t.kind <;> exact inferInstance

/-- A new session from which temps of the given names were drawn. -/
def ofTemps (names : List String) : Session := names.foldl withTemp {}

/-- A new session in which labels of the given names were mentioned. -/
def ofLabels (names : List String) : Session := names.foldl withLabel {}

variable {s : Session} {t : Temp} {n : Nat}

/-- The only frame pointer a session owns is the frame pointer. -/
theorem Owns.eq_framePointer (h : s.Owns t) (hfp : t.isFramePointer = true) :
    t = .framePointer := by
  have hk : t.kind = .framePointer := by simpa [Temp.isFramePointer] using hfp
  unfold Owns at h
  rw [hk] at h
  exact h

/-- The only temp a session owns that is pinned to a register is the fixed
temp of that register. -/
theorem Owns.eq_fixed {r : Register} (h : s.Owns t) (hr : t.pinned? = some r) : t = .fixed r := by
  unfold Owns at h
  unfold Temp.pinned? at hr
  cases hk : t.kind <;> rw [hk] at h hr <;> simp at hr
  rw [← hr]
  exact h

/-- A plain temp that was drawn is owned. -/
theorem owns_plain (name : String) (hlt : n < s.tempCount) : s.Owns ⟨n, .plain name⟩ := hlt

/-- A plain temp with a number that is yet to be drawn is not owned. -/
theorem not_owns_plain (name : String) (hle : s.tempCount ≤ n) : ¬ s.Owns ⟨n, .plain name⟩ :=
  Nat.not_lt.mpr hle

/-- A holder with a number that is yet to be drawn is not owned. -/
theorem not_owns_holder (hle : s.tempCount ≤ n) : ¬ s.Owns ⟨n, .holder⟩ := Nat.not_lt.mpr hle

/-- What a session owns it keeps as more temps are drawn. -/
theorem Owns.mono {a b : Session} (h : a.Owns t) (hle : a.tempCount ≤ b.tempCount) : b.Owns t := by
  unfold Owns at h ⊢
  split at h
  · exact h
  · exact h
  · exact Nat.lt_of_lt_of_le h hle
  · exact Nat.lt_of_lt_of_le h hle

/-! ## Sessions that only draw temps -/

/-- From one session to the other nothing but temps is drawn. -/
structure DrawsTemps (a b : Session) : Prop where
  le : a.tempCount ≤ b.tempCount
  labels : b.labels = a.labels
  config : b.config = a.config

namespace DrawsTemps

variable {a b c : Session}

@[refl] theorem refl (a : Session) : a.DrawsTemps a := ⟨Nat.le_refl _, rfl, rfl⟩

theorem trans (h : a.DrawsTemps b) (h' : b.DrawsTemps c) : a.DrawsTemps c :=
  ⟨Nat.le_trans h.le h'.le, h'.labels.trans h.labels, h'.config.trans h.config⟩

end DrawsTemps

/-- One session **continues** another: temps and labels are drawn, under the same
configuration, and none is given back. -/
structure Continues (a b : Session) : Prop where
  le : a.tempCount ≤ b.tempCount
  labels : ∀ l ∈ a.labels, l ∈ b.labels
  config : b.config = a.config

namespace Continues

variable {a b c : Session}

@[refl] theorem refl (a : Session) : a.Continues a := ⟨Nat.le_refl _, fun _ h => h, rfl⟩

theorem trans (h : a.Continues b) (h' : b.Continues c) : a.Continues c :=
  ⟨Nat.le_trans h.le h'.le, fun l hl => h'.labels l (h.labels l hl), h'.config.trans h.config⟩

end Continues

theorem continues_freshLabel (s : Session) : s.Continues (freshLabel.run s).2 := by
  obtain ⟨l, s', hrun, -, hlabels, hcount, hconfig⟩ := run_freshLabel s
  rw [hrun]
  exact ⟨hcount.ge, fun _ hl => hlabels ▸ List.mem_append_left _ hl, hconfig⟩

theorem DrawsTemps.continues {a b : Session} (h : a.DrawsTemps b) : a.Continues b :=
  ⟨h.le, fun _ hl => h.labels ▸ hl, h.config⟩

end Session

/-- Whether every temp an instruction mentions belongs to a session. -/
def Instruction.OwnedBy (s : Session) (i : Instruction) : Prop := ∀ t ∈ i.uses ++ i.defs, s.Owns t

instance (s : Session) : DecidablePred (Instruction.OwnedBy s) := fun i =>
  inferInstanceAs (Decidable (∀ t ∈ i.uses ++ i.defs, s.Owns t))

end TreeBackend
