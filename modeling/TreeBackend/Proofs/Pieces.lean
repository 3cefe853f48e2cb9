import Mathlib.Data.List.Forall2

/-!
# Code made of pieces

Several stages replace every item of a list – an instruction, a statement – by a
piece of code, and put the pieces together in the order of the items. This
module says where things are in the result: where each piece starts, what
stands in it, and where something is found first.
-/

namespace TreeBackend

open List

section Pieces

variable {α β : Type} {pieces : List (List β)} {k : Nat} {piece : List β}

/-- Where piece `k` **starts**. -/
def start (pieces : List (List β)) (k : Nat) : Nat := (pieces.take k).flatten.length

theorem start_length (pieces : List (List β)) :
    start pieces pieces.length = pieces.flatten.length := by
  unfold start
  rw [take_length]

theorem start_succ (hk : pieces[k]? = some piece) :
    start pieces (k + 1) = start pieces k + piece.length := by
  unfold start
  rw [take_add_one, hk]
  simp

theorem start_cons_succ (piece : List β) (pieces : List (List β)) (k : Nat) :
    start (piece :: pieces) (k + 1) = start pieces k + piece.length := by
  unfold start
  rw [take_succ_cons, flatten_cons, length_append, Nat.add_comm]

/-- Every item has a piece, in the same place. -/
theorem exists_piece {R : α → List β → Prop} {xs : List α} (h : List.Forall₂ R xs pieces) {x : α}
    (hx : xs[k]? = some x) : ∃ piece, pieces[k]? = some piece ∧ R x piece := by
  induction h generalizing k with
  | nil => cases hx
  | cons hhead _ ih =>
    cases k with
    | zero => exact ⟨_, rfl, Option.some.inj hx ▸ hhead⟩
    | succ k => exact ih hx

/-- What stands in a piece stands in the code, counted from where the piece
starts. -/
theorem getElem?_flatten_start (hk : pieces[k]? = some piece) {j : Nat} (hj : j < piece.length) :
    pieces.flatten[start pieces k + j]? = piece[j]? := by
  have hsplit : pieces = pieces.take k ++ piece :: pieces.drop (k + 1) := by
    obtain ⟨hlt, rfl⟩ := List.getElem?_eq_some_iff.mp hk
    rw [← drop_eq_getElem_cons hlt, take_append_drop]
  unfold start
  conv_lhs => rw [hsplit]
  rw [flatten_append, flatten_cons]
  rw [show (List.take k (pieces.take k ++ piece :: pieces.drop (k + 1))) = pieces.take k by
    rw [← hsplit]]
  rw [List.getElem?_append_right (Nat.le_add_right _ _), Nat.add_sub_cancel_left,
    List.getElem?_append_left hj]

/-- What is looked for is first **found** at the start of the piece of the item
that is found first, if the piece of such an item begins with it and the piece
of no other item has it. -/
theorem findIdx?_flatten {xs : List α} {p : α → Bool} {q : β → Bool}
    (h : List.Forall₂ (fun x piece =>
      (p x = true → ∃ y rest, piece = y :: rest ∧ q y = true) ∧
        (p x = false → ∀ y ∈ piece, q y = false)) xs pieces) :
    pieces.flatten.findIdx? q = (xs.findIdx? p).map (start pieces) := by
  induction h with
  | nil => rfl
  | @cons x piece xs pieces hx _ ih =>
    rw [flatten_cons, List.findIdx?_append, List.findIdx?_cons]
    cases hp : p x with
    | true =>
      obtain ⟨y, rest, rfl, hy⟩ := hx.1 hp
      rw [List.findIdx?_cons, hy]
      rfl
    | false =>
      rw [List.findIdx?_eq_none_iff.mpr (hx.2 hp), Option.none_or, ih, if_neg Bool.false_ne_true,
        Option.map_map, Option.map_map]
      refine congrArg (fun f => Option.map f _) (funext fun k => ?_)
      exact (start_cons_succ piece pieces k).symm

end Pieces

end TreeBackend
