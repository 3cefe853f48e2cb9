import TreeBackend.Session.Basic
import Std.Data.String.ToNat
import Mathlib.Data.Finset.Card

/-!
# Fresh labels

A fresh label is found by trying one number after the other, and the search is
cut off after as many tries as there are labels. It is never cut off too early:
different numbers make different labels, so some try is free
(`numbered_firstFree_notMem`). A fresh label is therefore one that the session
did not know before, and the only one it comes to know.
-/

namespace TreeBackend

open List

namespace Session

/-- Different numbers make different labels. -/
theorem numbered_injective : Function.Injective numbered := by
  intro m n h
  have hname : "L" ++ Nat.repr m = "L" ++ Nat.repr n := congrArg Label.name h
  exact Nat.repr_injective (String.append_right_inj "L" |>.mp hname)

/-- Where the search gives up, all that was tried is in use. -/
theorem mem_of_firstFree {labels : List Label} {fuel n : Nat}
    (h : numbered (firstFree labels fuel n) ∈ labels) :
    ∀ k ≤ fuel, numbered (n + k) ∈ labels := by
  induction fuel generalizing n with
  | zero =>
    intro k hk
    obtain rfl := Nat.le_zero.mp hk
    exact h
  | succ fuel ih =>
    rw [firstFree] at h
    split at h
    · next hn =>
      intro k hk
      cases k with
      | zero => exact hn
      | succ k =>
        have := ih h k (Nat.le_of_succ_le_succ hk)
        rwa [Nat.add_right_comm] at this
    · next hn => exact absurd h hn

/-- **The search finds a free number**: there are more tries than labels. -/
theorem numbered_firstFree_notMem (labels : List Label) (n : Nat) :
    numbered (firstFree labels labels.length n) ∉ labels := by
  intro h
  have htried := mem_of_firstFree h
  have hsubset : (Finset.range (labels.length + 1)).image (fun k => numbered (n + k)) ⊆
      labels.toFinset := by
    intro l hl
    obtain ⟨k, hk, rfl⟩ := Finset.mem_image.mp hl
    exact mem_toFinset.mpr (htried k (Nat.le_of_lt_succ (Finset.mem_range.mp hk)))
  have hcard : ((Finset.range (labels.length + 1)).image fun k => numbered (n + k)).card
      = labels.length + 1 := by
    rw [Finset.card_image_of_injective _ fun j k h =>
      Nat.add_left_cancel (numbered_injective h), Finset.card_range]
  have := (Finset.card_le_card hsubset).trans labels.toFinset_card_le
  omega

/-- What drawing a fresh label does to a session: the label is new to it. -/
theorem run_freshLabel (s : Session) :
    ∃ l s', freshLabel.run s = (l, s') ∧ l ∉ s.labels ∧ s'.labels = s.labels ++ [l] ∧
      s'.tempCount = s.tempCount ∧ s'.config = s.config := by
  have hfree := numbered_firstFree_notMem s.labels s.nextFresh
  obtain ⟨n, u, hn, hfree, hlabels, hsame⟩ : ∃ n u, nextNumber.run s = (n, u) ∧
      numbered n ∉ s.labels ∧ u.labels = s.labels ∧ u.tempCount = s.tempCount ∧
      u.config = s.config :=
    ⟨_, _, rfl, hfree, rfl, rfl, rfl⟩
  refine ⟨numbered n, u.withLabel (numbered n).name, ?_, hfree, ?_, hsame⟩
  · rw [freshLabel, StateT.run_bind, hn]
    show (namedLabel (numbered n).name).run u = _
    rw [run_namedLabel, if_neg (hlabels ▸ hfree)]
  · rw [labels_withLabel, hlabels]

end Session

/-- No label is repeated if none stands twice or was seen before. -/
theorem Label.firstRepeated_eq_none {labels seen : List Label} (hnodup : labels.Nodup)
    (hseen : ∀ l ∈ labels, l ∉ seen) : firstRepeated seen labels = none := by
  induction labels generalizing seen with
  | nil => rfl
  | cons l labels ih =>
    rw [nodup_cons] at hnodup
    rw [forall_mem_cons] at hseen
    rw [firstRepeated, if_neg hseen.1]
    refine ih hnodup.2 fun l' hl' => ?_
    rw [mem_cons, not_or]
    exact ⟨fun heq => hnodup.1 (heq ▸ hl'), hseen.2 l' hl'⟩

end TreeBackend
