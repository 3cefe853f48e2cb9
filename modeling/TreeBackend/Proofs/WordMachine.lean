import TreeBackend.Proofs.Machine

/-!
# Machines with words

What instructions do to memory is as open as all else they do, but code that
keeps values in memory relies on two things: that a load reads the word it
names and a store writes it, and that other instructions leave that word alone.
A `WordMachine` is a machine that keeps the first promise; `LeavesAlone` is the
second, made by one instruction at one moment.

`Interleaved` compares runs of which one takes more steps than the other.
-/

namespace TreeBackend

namespace Machine

/-! ## Memory with words -/

/-- A memory of words, and whatever else the machine keeps. -/
structure Store (A V F : Type) where
  words : A → V
  rest : F

namespace Store

variable {A V F : Type}

/-- Write a word. -/
def write [DecidableEq A] (m : Store A V F) (a : A) (v : V) : Store A V F :=
  { m with words := Function.update m.words a v }

/-- The memories **agree off** some words: they differ in nothing else. -/
structure AgreeOff (slot : A → Prop) (m m' : Store A V F) : Prop where
  words_eq : ∀ a, ¬ slot a → m'.words a = m.words a
  rest_eq : m'.rest = m.rest

theorem AgreeOff.refl (slot : A → Prop) (m : Store A V F) : AgreeOff slot m m :=
  ⟨fun _ _ => rfl, rfl⟩

theorem AgreeOff.trans {slot : A → Prop} {m₁ m₂ m₃ : Store A V F} (h : AgreeOff slot m₁ m₂)
    (h' : AgreeOff slot m₂ m₃) : AgreeOff slot m₁ m₃ :=
  ⟨fun a ha => (h'.words_eq a ha).trans (h.words_eq a ha), h'.rest_eq.trans h.rest_eq⟩

theorem AgreeOff.write [DecidableEq A] {slot : A → Prop} {a : A} (ha : slot a) (m : Store A V F)
    (v : V) : AgreeOff slot m (m.write a v) := by
  refine ⟨fun x hx => ?_, rfl⟩
  show Function.update m.words a v x = m.words x
  rw [Function.update_of_ne]
  rintro rfl
  exact hx ha

end Store

/-- A machine whose memory has words. An address is a value and a displacement; nothing
is said here about which addresses are different. -/
structure WordMachine (V A F E : Type) [DecidableEq A] extends Behaviour V (Store A V F) E where
  address : V → Int64 → A
  /-- A load may do this: read the word. -/
  load_acts : ∀ (dst base : Temp) (disp : Int64) (v : V) (m : Store A V F),
    acts (Instruction.load dst ⟨some base, disp⟩).operation [v] m
      ⟨[m.words (address v disp)], m, none, .next⟩
  /-- A store may do this: write the word. -/
  store_acts : ∀ (base value : Temp) (disp : Int64) (x v : V) (m : Store A V F),
    acts (Instruction.store ⟨some base, disp⟩ value).operation [x, v] m
      ⟨[], m.write (address v disp) x, none, .next⟩

variable {V A F E : Type} [DecidableEq A]

/-- An instruction **leaves words alone** when it makes no difference to it what
they hold, and they hold the same after it: in any memory that differs in these
words only, it may do what it did. -/
def LeavesAlone (b : Behaviour V (Store A V F) E) (slot : A → Prop) (op : Operation)
    (values : List V) (m : Store A V F) (out : Outcome V (Store A V F) E) : Prop :=
  ∀ m', Store.AgreeOff slot m m' → ∃ memory, b.acts op values m' { out with memory } ∧
    Store.AgreeOff slot out.memory memory ∧ ∀ a, slot a → memory.words a = m'.words a

/-! ## Runs with steps in between -/

/-- The second list is the first one with other things in between. -/
inductive Interleaved {α β : Type} (related : α → β → Prop) (extra : β → Prop) :
    List α → List β → Prop where
  | nil : Interleaved related extra [] []
  | both {a : α} {b : β} {as : List α} {bs : List β} (head : related a b)
      (tail : Interleaved related extra as bs) : Interleaved related extra (a :: as) (b :: bs)
  | extra {b : β} {as : List α} {bs : List β} (head : extra b)
      (tail : Interleaved related extra as bs) : Interleaved related extra as (b :: bs)

namespace Interleaved

variable {α β γ : Type} {related : α → β → Prop} {extra : β → Prop}

theorem append {as as' : List α} {bs bs' : List β} (h : Interleaved related extra as bs)
    (h' : Interleaved related extra as' bs') :
    Interleaved related extra (as ++ as') (bs ++ bs') := by
  induction h with
  | nil => exact h'
  | both head _ ih => exact .both head ih
  | extra head _ ih => exact .extra head ih

theorem of_extra {bs : List β} (h : ∀ b ∈ bs, extra b) : Interleaved related extra [] bs := by
  induction bs with
  | nil => exact .nil
  | cons b bs ih =>
    exact .extra (h b List.mem_cons_self) (ih fun b' hb' => h b' (List.mem_cons_of_mem _ hb'))

end Interleaved

end Machine

end TreeBackend
