import Mathlib.Data.List.Basic
import TreeBackend.Proofs.LiveSets

/-!
# Renaming temps

A stage may ask what a temp stands for, whether two temps are the same, and which of
two comes first; the number of a temp means nothing beyond that. A **renaming**
changes numbers and leaves those three answers as they are, and it leaves the
machine's own temps alone. Sets follow: a renamed set lists the renamed temps in the
same order.
-/

namespace TreeBackend

open List Std.ExtTreeSet

variable {t : Temp}

/-- A **renaming** of temps, which keeps what they stand for and their order. -/
structure Temp.Renaming where
  toFun : Temp → Temp
  kind_eq : ∀ t, (toFun t).kind = t.kind
  compare_eq : ∀ a b, compare (toFun a) (toFun b) = compare a b
  eq_of_lt : ∀ t, t.index < 7 → toFun t = t

namespace Temp.Renaming

instance : CoeFun Temp.Renaming fun _ => Temp → Temp := ⟨toFun⟩

/-- Every temp but the machine's own gets a number that is higher by `distance`. -/
def shift (distance : Nat) : Temp.Renaming where
  toFun t := if t.index < 7 then t else ⟨t.index + distance, t.kind⟩
  kind_eq t := by
    split
    · rfl
    · rfl
  compare_eq a b := by
    have hids : compare (if a.index < 7 then a.index else a.index + distance)
        (if b.index < 7 then b.index else b.index + distance) = compare a.index b.index := by
      simp only [Nat.compare_eq_ite_lt]
      grind
    rw [compare_def, compare_def a b, ← hids]
    split <;> split <;> rfl
  eq_of_lt t h := if_pos h

variable (ρ : Temp.Renaming)

@[simp] theorem eq_iff {a b : Temp} : ρ a = ρ b ↔ a = b := by
  rw [← Std.LawfulEqOrd.compare_eq_iff_eq, ρ.compare_eq, Std.LawfulEqOrd.compare_eq_iff_eq]

theorem injective : Function.Injective ρ := fun _ _ h => ρ.eq_iff.mp h

@[simp] theorem apply_fixed (r : Register) : ρ (.fixed r) = .fixed r :=
  ρ.eq_of_lt _ (Nat.lt_trans r.color_lt_six (by decide))

@[simp] theorem apply_framePointer : ρ .framePointer = .framePointer := ρ.eq_of_lt _ (by decide)

@[simp] theorem isFramePointer_apply (t : Temp) : (ρ t).isFramePointer = t.isFramePointer := by
  rw [isFramePointer, ρ.kind_eq, isFramePointer]

@[simp] theorem pinned?_apply (t : Temp) : (ρ t).pinned? = t.pinned? := by
  rw [pinned?, ρ.kind_eq, pinned?]

@[simp] theorem mem_map {temps : List Temp} : ρ t ∈ temps.map ρ ↔ t ∈ temps :=
  mem_map_of_injective ρ.injective

end Temp.Renaming

namespace TempSet

variable {ρ : Temp.Renaming} {s s' : TempSet}

/-- The set of the renamed temps. -/
def rename (ρ : Temp.Renaming) (s : TempSet) : TempSet := ofList (s.toList.map ρ)

theorem mem_rename : t ∈ rename ρ s ↔ ∃ u ∈ s, ρ u = t := by
  rw [rename, mem_ofList, mem_map]
  simp only [mem_toList]

@[simp] theorem apply_mem_rename : ρ t ∈ rename ρ s ↔ t ∈ s := by
  rw [mem_rename]
  constructor
  · rintro ⟨u, hu, heq⟩
    exact ρ.injective heq ▸ hu
  · exact fun h => ⟨t, h, rfl⟩

theorem rename_injective (h : rename ρ s = rename ρ s') : s = s' :=
  ext_mem fun t => by rw [← apply_mem_rename (ρ := ρ), h, apply_mem_rename]

/-- A set is the renamed one if it has nothing but renamed temps, and those. -/
theorem eq_rename (himage : ∀ t ∈ s', ∃ u, ρ u = t) (h : ∀ u, ρ u ∈ s' ↔ u ∈ s) :
    s' = rename ρ s := by
  refine ext_mem fun t => ⟨fun ht => ?_, fun ht => ?_⟩
  · obtain ⟨u, rfl⟩ := himage t ht
    exact apply_mem_rename.mpr ((h u).mp ht)
  · obtain ⟨u, hu, rfl⟩ := mem_rename.mp ht
    exact (h u).mpr hu

theorem rename_ofList (temps : List Temp) : rename ρ (ofList temps) = ofList (temps.map ρ) := by
  refine (eq_rename (fun t ht => ?_) fun u => ?_).symm
  · obtain ⟨u, -, heq⟩ := mem_map.mp (mem_ofList.mp ht)
    exact ⟨u, heq⟩
  · rw [mem_ofList, ρ.mem_map, mem_ofList]

theorem rename_union : rename ρ (s ∪ s') = rename ρ s ∪ rename ρ s' := by
  refine (eq_rename (fun t ht => ?_) fun u => ?_).symm
  · obtain ht | ht := mem_union_iff.mp ht
    · exact (mem_rename.mp ht).imp fun _ h => h.2
    · exact (mem_rename.mp ht).imp fun _ h => h.2
  · rw [Std.ExtTreeSet.mem_union_iff, apply_mem_rename, apply_mem_rename,
      Std.ExtTreeSet.mem_union_iff]

theorem rename_diff : rename ρ (s \ s') = rename ρ s \ rename ρ s' := by
  refine (eq_rename (fun t ht => ?_) fun u => ?_).symm
  · exact (mem_rename.mp (mem_diff_iff.mp ht).1).imp fun _ h => h.2
  · rw [mem_diff_iff, apply_mem_rename, apply_mem_rename, mem_diff_iff]

theorem rename_insert : rename ρ (s.insert t) = (rename ρ s).insert (ρ t) := by
  refine (eq_rename (fun u hu => ?_) fun u => ?_).symm
  · obtain heq | hu := mem_insert.mp hu
    · exact ⟨t, Std.LawfulEqCmp.compare_eq_iff_eq.mp heq⟩
    · exact (mem_rename.mp hu).imp fun _ h => h.2
  · rw [mem_insert, apply_mem_rename, ρ.compare_eq, mem_insert]

/-- Renamed temps are listed in the order they were listed in. -/
theorem toList_rename : (rename ρ s).toList = s.toList.map ρ := by
  have hsorted : (s.toList.map ρ).Pairwise fun a b => compare a b = .lt := by
    rw [pairwise_map]
    exact ordered_toList.imp fun h => (ρ.compare_eq _ _).trans h
  have nodup {temps : List Temp} (h : temps.Pairwise fun a b => compare a b = .lt) : temps.Nodup :=
    h.imp fun {a b} hlt heq => by
      rw [heq, Std.ReflOrd.compare_self] at hlt
      cases hlt
  have antisymm (a b : Temp) (hlt : compare a b = .lt) (hgt : compare b a = .lt) : a = b :=
    absurd hgt (Std.OrientedCmp.not_lt_of_lt hlt)
  refine List.Perm.eq_of_pairwise (fun a b _ _ => antisymm a b) ordered_toList hsorted ?_
  refine (perm_ext_iff_of_nodup (nodup ordered_toList) (nodup hsorted)).mpr fun t => ?_
  rw [mem_toList, rename, mem_ofList]

theorem size_rename : (rename ρ s).size = s.size := by
  rw [← length_toList, toList_rename, length_map, length_toList]

end TempSet

end TreeBackend
