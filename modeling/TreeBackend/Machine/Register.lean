/-!
# Machine registers

The target has six registers that the allocator may hand out. Each of them is
also a *colour*, its position in the fixed order `eax edx ebx ecx esi edi`;
colouring a temp is choosing a register for it.
-/

namespace TreeBackend

/-- A register of the target machine that can hold a temp. -/
inductive Register where
  | eax
  | edx
  | ebx
  | ecx
  | esi
  | edi
  deriving DecidableEq, Repr

namespace Register

/-- The allocatable registers, in the order of their colours. -/
def all : List Register := [eax, edx, ebx, ecx, esi, edi]

/-- The **colour** of a register: its position in `Register.all`. -/
def color : Register → Nat
  | eax => 0
  | edx => 1
  | ebx => 2
  | ecx => 3
  | esi => 4
  | edi => 5

/-- The register of a colour, if the colour is one of the six. -/
def ofColor? (color : Nat) : Option Register := all[color]?

/-- The register's name in assembly text. -/
def name : Register → String
  | eax => "eax"
  | edx => "edx"
  | ebx => "ebx"
  | ecx => "ecx"
  | esi => "esi"
  | edi => "edi"

/-- Colours and registers name each other. -/
@[simp] theorem ofColor?_color (r : Register) : ofColor? r.color = some r := by
  cases r <;> rfl

/-- A colour names a register exactly when it is that register's colour. -/
theorem ofColor?_eq_some_iff {c : Nat} {r : Register} :
    ofColor? c = some r ↔ r.color = c := by
  constructor
  · intro h
    match c, h with
    | 0, h | 1, h | 2, h | 3, h | 4, h | 5, h =>
      simp [ofColor?, all] at h
      subst h
      rfl
    | n + 6, h => simp [ofColor?, all] at h
  · rintro rfl
    exact ofColor?_color r

/-- Different registers have different colours. -/
theorem color_injective {r s : Register} (h : r.color = s.color) : r = s := by
  have := ofColor?_color r
  rw [h, ofColor?_color] at this
  exact (Option.some.inj this).symm

/-- Every register's colour lies below six. -/
theorem color_lt_six (r : Register) : r.color < 6 := by
  cases r <;> decide

end Register

end TreeBackend
