import TreeBackend.Proofs.TreeActions

/-!
# Sequences of trees and what they do

A sequence of statements is brought into canonical form statement by statement,
and its code is the code of its statements (`Stm.renders_seqAll`). What a
sequence does is therefore put together from what its statements do: actions
one after the other (`Stm.Acts.bind`), and a choice between two values, made by
one or two branches (`Stm.Decides.sets`).
-/

namespace TreeBackend

open List World

/-- The statements, brought into canonical form one after the other, make up
the code. -/
inductive Stm.Renders : List Stm → Session → List Stm → Session → Prop where
  | nil (a : Session) : Renders [] a [] a
  | cons {stm c : Stm} {stms code : List Stm} {a u b : Session}
      (head : Yields stm.canonicalize a c u) (tail : Renders stms u code b) :
      Renders (stm :: stms) a (c.linear ++ code) b

namespace Stm

variable {stm c : Stm} {stms stms' code : List Stm} {a b : Session}

theorem renders_nil : Renders [] a code b ↔ code = [] ∧ a = b := by
  constructor
  · rintro ⟨⟩
    exact ⟨rfl, rfl⟩
  · rintro ⟨rfl, rfl⟩
    exact .nil _

theorem renders_cons : Renders (stm :: stms) a code b ↔ ∃ c u code',
    Yields stm.canonicalize a c u ∧ Renders stms u code' b ∧ code = c.linear ++ code' := by
  constructor
  · rintro (_ | ⟨hhead, htail⟩)
    exact ⟨_, _, _, hhead, htail, rfl⟩
  · rintro ⟨c, u, code', hhead, htail, rfl⟩
    exact .cons hhead htail

theorem renders_append : Renders (stms ++ stms') a code b ↔ ∃ code₁ u code₂,
    Renders stms a code₁ u ∧ Renders stms' u code₂ b ∧ code = code₁ ++ code₂ := by
  induction stms generalizing a code with
  | nil => simp [renders_nil]
  | cons stm stms ih =>
    rw [cons_append, renders_cons]
    constructor
    · rintro ⟨c, u, code', hc, hrest, rfl⟩
      obtain ⟨code₁, v, code₂, h₁, h₂, rfl⟩ := ih.mp hrest
      exact ⟨_, v, code₂, .cons hc h₁, h₂, (append_assoc ..).symm⟩
    · rintro ⟨code₁, v, code₂, h₁, h₂, rfl⟩
      obtain ⟨c, u, code', hc, hrest, rfl⟩ := renders_cons.mp h₁
      exact ⟨c, u, _, hc, ih.mpr ⟨code', v, code₂, hrest, h₂, rfl⟩, append_assoc ..⟩

theorem renders_singleton : Renders [stm] a code b ↔ ∃ c, Yields stm.canonicalize a c b ∧
    code = c.linear := by
  simp only [renders_cons, renders_nil]
  constructor
  · rintro ⟨c, u, _, hc, ⟨rfl, rfl⟩, rfl⟩
    exact ⟨c, hc, append_nil _⟩
  · rintro ⟨c, hc, rfl⟩
    exact ⟨c, b, [], hc, ⟨rfl, rfl⟩, (append_nil _).symm⟩

theorem renders_cons_singleton : Renders (stm :: stms) a code b ↔ ∃ code₁ u code₂,
    Renders [stm] a code₁ u ∧ Renders stms u code₂ b ∧ code = code₁ ++ code₂ := by
  rw [← singleton_append, renders_append]

/-- A statement that does nothing renders to nothing. -/
theorem renders_singleton_of_isNop (h : stm.isNop = true) :
    Renders [stm] a code b ↔ code = [] ∧ a = b := by
  rw [renders_singleton]
  unfold isNop at h
  split at h
  · constructor
    · rintro ⟨c, hc, rfl⟩
      obtain ⟨p, hp, rfl⟩ := yields_canonicalize_exp.mp hc
      obtain ⟨rfl, rfl⟩ := yields_pure.mp hp
      exact ⟨rfl, rfl⟩
    · rintro ⟨rfl, rfl⟩
      exact ⟨_, yields_canonicalize_exp.mpr ⟨_, rfl, rfl⟩, rfl⟩
  · cases h

theorem renders_filter :
    Renders (stms.filter fun s => !s.isNop) a code b ↔ Renders stms a code b := by
  induction stms generalizing a code with
  | nil => exact Iff.rfl
  | cons stm stms ih =>
    rw [filter_cons]
    split
    · simp only [renders_cons, ih]
    · next hnop =>
      have hnop' : stm.isNop = true := by simpa using hnop
      rw [ih, renders_cons_singleton]
      simp [renders_singleton_of_isNop hnop']

theorem renders_chain : Renders [chain stms] a code b ↔ Renders stms a code b := by
  induction stms using chain.induct generalizing a code with
  | case1 => rw [chain, renders_singleton_of_isNop rfl, renders_nil]
  | case2 s => rfl
  | case3 s rest hrest ih =>
    rw [chain.eq_3 s rest hrest, renders_singleton]
    constructor
    · rintro ⟨c, hc, rfl⟩
      obtain ⟨c₁, u, c₂, hc₁, hc₂, rfl⟩ := yields_canonicalize_seq.mp hc
      rw [linear_seqAll, flatMap_cons, flatMap_singleton]
      exact .cons hc₁ (ih.mp (renders_singleton.mpr ⟨c₂, hc₂, rfl⟩))
    · intro h
      obtain ⟨c₁, u, code', hc₁, hrest, rfl⟩ := renders_cons.mp h
      obtain ⟨c₂, hc₂, rfl⟩ := renders_singleton.mp (ih.mpr hrest)
      refine ⟨_, yields_canonicalize_seq.mpr ⟨c₁, u, c₂, hc₁, hc₂, rfl⟩, ?_⟩
      rw [linear_seqAll, flatMap_cons, flatMap_singleton]

/-- **A sequence renders** as its statements do. -/
theorem renders_seqAll : Renders [seqAll stms] a code b ↔ Renders stms a code b :=
  renders_chain.trans renders_filter

/-- Rendering keeps the labels. -/
theorem Renders.labels (h : Renders stms a code b) :
    Body.labels code = stms.flatMap Stm.labels := by
  induction h with
  | nil => rfl
  | cons hhead _ ih => rw [Body.labels_append, (hasForm _ hhead).labels, ih, flatMap_cons]

theorem Renders.le (h : Renders stms a code b) : a.tempCount ≤ b.tempCount := by
  induction h with
  | nil => exact Nat.le_refl _
  | cons hhead _ ih => exact Nat.le_trans (le_of_canonicalize hhead) ih

/-- A statement that is its own canonical form renders as it is. -/
theorem renders_cons_of_plain (hplain : ∀ a, Yields stm.canonicalize a stm a)
    (hlinear : stm.linear = [stm]) : Renders (stm :: stms) a code b ↔
      ∃ code', Renders stms a code' b ∧ code = stm :: code' := by
  rw [renders_cons]
  constructor
  · rintro ⟨c, u, code', hc, hrest, rfl⟩
    obtain ⟨heq, rfl⟩ := Prod.mk.inj ((hplain a).symm.trans hc)
    obtain rfl := Except.ok.inj heq
    rw [hlinear]
    exact ⟨code', hrest, rfl⟩
  · rintro ⟨code', hrest, rfl⟩
    refine ⟨stm, a, code', hplain a, hrest, ?_⟩
    rw [hlinear]
    rfl

theorem renders_cons_label {l : Label} : Renders (.label l :: stms) a code b ↔
    ∃ code', Renders stms a code' b ∧ code = .label l :: code' :=
  renders_cons_of_plain (fun _ => by rw [canonicalize]; rfl) rfl

theorem renders_cons_jump {l : Label} : Renders (.jump l :: stms) a code b ↔
    ∃ code', Renders stms a code' b ∧ code = .jump l :: code' :=
  renders_cons_of_plain (fun _ => by rw [canonicalize]; rfl) rfl

theorem renders_cons_const {t : Temp} {n : Int64} :
    Renders (.move (.temp t) (.const n) :: stms) a code b ↔
      ∃ code', Renders stms a code' b ∧ code = .move (.temp t) (.const n) :: code' :=
  renders_cons_of_plain (fun _ => by rw [canonicalize_move]; rfl) rfl

end Stm

/-! ## Actions one after the other -/

section Acts

variable {V M α β : Type}

/-- The statements carry out the action and are run through; afterwards,
something is known about the temps. -/
structure Stm.Acts (host : Host V M) (known : (Temp → V) → Prop) (lo hi : Nat) (stms : List Stm)
    (m : Action V M α) (after : α → (Temp → V) → Prop) : Prop where
  le : lo ≤ hi
  runs : (stms.flatMap Stm.labels).Nodup → ∀ {a b : Session} {code : List Stm},
    Stm.Renders stms a code b → ∀ {u : World V M} {v : α} {o : Outside V M},
      Gives m u.outside v o → known u.temps → ∃ u', Body.Ends host code u none u' ∧
        KeptBetween ⟨lo, a.tempCount⟩ ⟨hi, b.tempCount⟩ u u' ∧ after v u'.temps ∧ u'.outside = o

namespace Stm.Acts

variable {host : Host V M} {known : (Temp → V) → Prop} {lo mid hi : Nat} {stms stms' : List Stm}
  {m : Action V M α} {after : α → (Temp → V) → Prop}

/-- **One after the other.** -/
theorem bind {m' : α → Action V M β} {after' : β → (Temp → V) → Prop}
    (h : Acts host known lo mid stms m after)
    (h' : ∀ v, Acts host (fun f => known f ∧ after v f) mid hi stms' (m' v) after')
    (hmid : mid ≤ hi) (hstable : Stable known lo) :
    Acts host known lo hi (stms ++ stms') (m >>= m') after' where
  le := Nat.le_trans h.le hmid
  runs hnodup a b code hcode u v o hm hknown := by
    rw [flatMap_append] at hnodup
    obtain ⟨hnodup₁, hnodup₂, -⟩ := nodup_append.mp hnodup
    obtain ⟨code₁, s, code₂, hcode₁, hcode₂, rfl⟩ := renders_append.mp hcode
    obtain ⟨x, o₁, hm, hm'⟩ := gives_bind.mp hm
    obtain ⟨u₁, hends₁, hkept₁, hafter, rfl⟩ := h.runs hnodup₁ hcode₁ hm hknown
    obtain ⟨u₂, hends₂, hkept₂, hafter', ho⟩ := (h' x).runs hnodup₂ hcode₂ hm'
      ⟨hstable.kept hkept₁ (Nat.le_refl _) hknown, hafter⟩
    refine ⟨u₂, ?_, ?_, hafter', ho⟩
    · refine hends₁.append hends₂ ?_ (by simp)
      rwa [Body.labels_append, hcode₁.labels, hcode₂.labels]
    · exact (hkept₁.mono (.refl _) ⟨hmid, hcode₂.le⟩).trans
        (hkept₂.mono ⟨h.le, hcode₁.le⟩ (.refl _))

theorem nil (lo : Nat) : Acts host known lo lo [] (pure ()) fun _ _ => True where
  le := Nat.le_refl _
  runs _ a b code hcode u v o hm _ := by
    obtain ⟨rfl, rfl⟩ := renders_nil.mp hcode
    obtain ⟨-, rfl⟩ := gives_pure.mp hm
    exact ⟨u, .nil u, .refl _ _ u, trivial, rfl⟩

/-- What was known before the actions is known after them. -/
theorem keep (h : Acts host known lo hi stms m after) (hstable : Stable known lo) :
    Acts host known lo hi stms m fun v f => known f ∧ after v f where
  le := h.le
  runs hnodup _ _ _ hcode _ _ _ hm hknown := by
    obtain ⟨u', hends, hkept, hafter, ho⟩ := h.runs hnodup hcode hm hknown
    exact ⟨u', hends, hkept, ⟨hstable.kept hkept (Nat.le_refl _) hknown, hafter⟩, ho⟩

/-- The same statements, seen as another action. -/
theorem imp {m' : Action V M β} {after' : β → (Temp → V) → Prop}
    (h : Acts host known lo hi stms m after)
    (himp : ∀ {o v' o'}, Gives m' o v' o' → ∃ v, Gives m o v o' ∧ ∀ f, after v f → after' v' f) :
    Acts host known lo hi stms m' after' where
  le := h.le
  runs hnodup _ _ _ hcode _ _ _ hm hknown := by
    obtain ⟨v, hm, himp⟩ := himp hm
    obtain ⟨u', hends, hkept, hafter, ho⟩ := h.runs hnodup hcode hm hknown
    exact ⟨u', hends, hkept, himp _ hafter, ho⟩

/-- A move into a new temp. -/
theorem set {e : Exp} {m : Action V M V} (h : e.Means host known lo hi m) (name : String) :
    Acts host known lo (hi + 1) [.move (.temp ⟨hi, .plain name⟩) e] m
      fun v f => f ⟨hi, .plain name⟩ = v where
  le := Nat.le_succ_of_le h.le
  runs hnodup _ _ _ hcode _ _ _ hm hknown := by
    obtain ⟨c, hc, rfl⟩ := renders_singleton.mp hcode
    rw [flatMap_singleton] at hnodup
    exact (h.sets name).runs hnodup hc hm hknown

/-- A move into memory. -/
theorem store {l r : Exp} {m₁ m₂ : Action V M V} (hl : l.Means host known lo mid m₁)
    (hr : r.Means host known mid hi m₂) (hstable : Stable known lo) :
    Acts host known lo hi [.move (.mem l) r] (do
      let x ← m₁
      let y ← m₂
      Action.store host x y) fun _ _ => True where
  le := Nat.le_trans hl.le hr.le
  runs hnodup _ _ _ hcode _ _ _ hm hknown := by
    obtain ⟨c, hc, rfl⟩ := renders_singleton.mp hcode
    rw [flatMap_singleton, labels_move, Exp.labels_mem] at hnodup
    simp only [gives_bind] at hm
    obtain ⟨x, o₁, hm₁, y, o₂, hm₂, hstore⟩ := hm
    obtain ⟨u', hends, hkept, ho⟩ := hl.move_mem hr hstable hnodup hc hm₁ hm₂ hknown
    rw [← ho, gives_store] at hstore
    exact ⟨_, hends, hkept, trivial, hstore⟩

/-- A sequence that ends with a known temp **sets** the temp. -/
theorem sets {m : Action V M V} {t : Temp} (h : Acts host known lo hi stms m fun v f => f t = v) :
    (seqAll stms).Sets host known lo hi t m where
  le := h.le
  runs hnodup _ _ _ hc _ _ _ hm hknown := by
    rw [labels_seqAll] at hnodup
    exact h.runs hnodup (renders_seqAll.mp (renders_singleton.mpr ⟨_, hc, rfl⟩)) hm hknown

end Stm.Acts

end Acts

/-! ## Branches -/

namespace Stm.Branches

variable {V M : Type} {host : Host V M} {known : (Temp → V) → Prop} {lo hi : Nat} {stm : Stm}
  {target skip : Label} {m m' : Action V M Bool}

/-- The same branch, seen as another action. -/
theorem imp (h : stm.Branches host known lo hi target m)
    (himp : ∀ {o v o'}, Gives m' o v o' → Gives m o v o') :
    stm.Branches host known lo hi target m' where
  le := h.le
  runs hnodup htarget _ _ _ hc _ _ _ hm hknown := h.runs hnodup htarget hc (himp hm) hknown

/-- **A branch around a jump** goes where the branch does not go. -/
theorem around (h : stm.Branches host known lo hi skip m) (target : Label) :
    (seqAll [stm, .jump target, .label skip]).Branches host known lo hi target
      (do return !(← m)) where
  le := h.le
  runs hnodup htarget a b c hc u v o hm hknown := by
    have hrenders := renders_seqAll.mp (renders_singleton.mpr ⟨c, hc, rfl⟩)
    obtain ⟨c₁, s, _, hc₁, hrest, hlinear⟩ := renders_cons.mp hrenders
    simp only [renders_cons_jump, renders_cons_label, renders_nil] at hrest
    obtain ⟨_, ⟨_, ⟨rfl, rfl⟩, rfl⟩, rfl⟩ := hrest
    simp only [labels_seqAll, flatMap_cons, flatMap_nil, labels_jump, labels_label,
      nil_append, append_nil] at hnodup htarget
    have hlabels : Body.labels (c₁.linear ++ [.jump target, .label skip]) =
        stm.labels ++ [skip] := by
      rw [Body.labels_append, (hasForm _ hc₁).labels]
      rfl
    obtain ⟨hnodup₁, -, hdisjoint⟩ := nodup_append.mp hnodup
    rw [mem_append, mem_singleton, not_or] at htarget
    have hskip : skip ∉ stm.labels := fun hmem => hdisjoint skip hmem skip (by simp) rfl
    simp only [gives_bind, gives_pure] at hm
    obtain ⟨v, o', hm, rfl, rfl⟩ := hm
    obtain ⟨u', hends, hkept, ho⟩ := h.runs hnodup₁ hskip hc₁ hm hknown
    refine ⟨u', ?_, hkept, ho⟩
    rw [hlinear]
    cases v with
    | true =>
      refine hends.land [.jump target] (.nil u') ?_ (by simp)
      rwa [← hlabels] at hnodup
    | false =>
      have hjump : Body.Ends host (c₁.linear ++ [.jump target]) u (some target) u' := by
        have hlabels₁ := (hasForm _ hc₁).labels
        exact hends.then_jump (hlabels₁ ▸ hnodup₁) (hlabels₁ ▸ htarget.1)
      have := hjump.leave [.label skip] (by simpa using htarget.2)
      rwa [append_assoc] at this

end Stm.Branches

/-! ## A choice between two values -/

namespace Body

variable {V M : Type} {host : Host V M} {t : Temp} {x y : Int64} {l₀ l₁ done : Label}
  {test : List Stm} {w w₁ : World V M} {exit : Option Label}

/-- Code that sets a temp to one of two constants. -/
def choice (t : Temp) (x y : Int64) (l₀ l₁ done : Label) : List Stm := [.label l₀,
    .move (.temp t) (.const x),
    .jump done,
    .label l₁,
    .move (.temp t) (.const y),
    .label done]

theorem labels_choice : labels (choice t x y l₀ l₁ done) = [l₀, l₁, done] := rfl

/-- The first constant, for control that comes to the code or to its first
label. -/
theorem Ends.choice_first (h : Ends host test w exit w₁) (hexit : exit = none ∨ exit = some l₀)
    (hnodup : (labels (test ++ choice t x y l₀ l₁ done)).Nodup) :
    Ends host (test ++ choice t x y l₀ l₁ done) w none (w₁.set t (host.const x)) := by
  have hnodup' : (labels (choice t x y l₀ l₁ done)).Nodup := by
    rw [labels_append] at hnodup
    exact (nodup_append.mp hnodup).2.1
  have hset : Ends host [.move (.temp t) (.const x), .jump done] w₁ (some done)
      (w₁.set t (host.const x)) :=
    Ends.append (.move (.temp t) (.const x) w₁) (.jump done _) nodup_nil fun _ _ => not_mem_nil
  have hrest : Ends host (choice t x y l₀ l₁ done).tail w₁ none (w₁.set t (host.const x)) :=
    hset.land [.label l₁, .move (.temp t) (.const y)] (.nil _) (nodup_cons.mp hnodup').2 (by simp)
  obtain rfl | rfl := hexit
  · exact h.append (Ends.append (.label l₀ w₁) hrest hnodup' (by simp)) hnodup (by simp)
  · exact h.land [] hrest hnodup (by simp)

/-- The second constant, for control that comes to the second label. -/
theorem Ends.choice_second (h : Ends host test w (some l₁) w₁)
    (hnodup : (labels (test ++ choice t x y l₀ l₁ done)).Nodup) :
    Ends host (test ++ choice t x y l₀ l₁ done) w none (w₁.set t (host.const y)) := by
  have hrest : Ends host [.move (.temp t) (.const y), .label done] w₁ none
      (w₁.set t (host.const y)) :=
    Ends.append (.move (.temp t) (.const y) w₁) (.label done _) (nodup_singleton done) (by simp)
  exact h.land [.label l₀, .move (.temp t) (.const x), .jump done] hrest hnodup (by simp)

end Body

section Decides

variable {V M : Type}

/-- The statements **decide**: if the action comes to the truth, control leaves
for `l₁`; otherwise it goes on, or leaves for `l₀`. -/
structure Stm.Decides (host : Host V M) (known : (Temp → V) → Prop) (lo hi : Nat) (stms : List Stm)
    (l₀ l₁ : Label) (m : Action V M Bool) : Prop where
  le : lo ≤ hi
  runs : (stms.flatMap Stm.labels).Nodup → l₀ ∉ stms.flatMap Stm.labels →
    l₁ ∉ stms.flatMap Stm.labels → ∀ {a b : Session} {code : List Stm},
    Stm.Renders stms a code b → ∀ {u : World V M} {v : Bool} {o : Outside V M},
      Gives m u.outside v o → known u.temps → ∃ u' exit, Body.Ends host code u exit u' ∧
        (v = true ∧ exit = some l₁ ∨ v = false ∧ (exit = none ∨ exit = some l₀)) ∧
        KeptBetween ⟨lo, a.tempCount⟩ ⟨hi, b.tempCount⟩ u u' ∧ u'.outside = o

variable {host : Host V M} {known : (Temp → V) → Prop} {lo mid hi : Nat} {stm stm₁ stm₂ : Stm}
  {l₀ l₁ : Label} {m m₁ m₂ : Action V M Bool}

/-- One branch decides. -/
theorem Stm.Branches.decides (h : stm.Branches host known lo hi l₁ m) (l₀ : Label) :
    Stm.Decides host known lo hi [stm] l₀ l₁ m where
  le := h.le
  runs hnodup _ hl₁ _ _ _ hcode _ v _ hm hknown := by
    rw [flatMap_singleton] at hnodup hl₁
    obtain ⟨c, hc, rfl⟩ := Stm.renders_singleton.mp hcode
    obtain ⟨u', hends, hkept, ho⟩ := h.runs hnodup hl₁ hc hm hknown
    refine ⟨u', _, hends, ?_, hkept, ho⟩
    cases v <;> simp

/-- **Two branches decide**: the first one alone, if it is taken, and else the
second one. -/
theorem Stm.Branches.decides_pair (decided : Bool)
    (h₁ : stm₁.Branches host known lo mid (if decided then l₁ else l₀) m₁)
    (h₂ : stm₂.Branches host known mid hi l₁ m₂) (hstable : Stable known lo) :
    Stm.Decides host known lo hi [stm₁, stm₂] l₀ l₁ (do if ← m₁ then return decided else m₂) where
  le := Nat.le_trans h₁.le h₂.le
  runs hnodup hl₀ hl₁ a b code hcode u v o hm hknown := by
    rw [flatMap_cons, flatMap_singleton] at hnodup hl₀ hl₁
    rw [mem_append, not_or] at hl₀ hl₁
    obtain ⟨hnodup₁, hnodup₂, -⟩ := nodup_append.mp hnodup
    obtain ⟨c₁, s, _, hc₁, hrest, rfl⟩ := Stm.renders_cons.mp hcode
    obtain ⟨c₂, hc₂, rfl⟩ := Stm.renders_singleton.mp hrest
    have hform₁ := stm₁.hasForm hc₁
    have hform₂ := stm₂.hasForm hc₂
    have htarget : (if decided then l₁ else l₀) ∉ stm₁.labels ∧
        (if decided then l₁ else l₀) ∉ stm₂.labels := by
      cases decided
      · exact hl₀
      · exact hl₁
    obtain ⟨first, o₁, hm₁, hm⟩ := gives_bind.mp hm
    obtain ⟨u₁, hends₁, hkept₁, rfl⟩ := h₁.runs hnodup₁ htarget.1 hc₁ hm₁ hknown
    have hkept₁' : KeptBetween ⟨lo, a.tempCount⟩ ⟨hi, b.tempCount⟩ u u₁ :=
      hkept₁.mono (.refl _) ⟨h₂.le, Stm.le_of_canonicalize hc₂⟩
    cases first with
    | true =>
      obtain ⟨rfl, rfl⟩ := gives_pure.mp hm
      -- the first branch decides, and the second one is passed over
      refine ⟨u₁, _, hends₁.leave c₂.linear ?_, ?_, hkept₁', rfl⟩
      · rw [hform₂.labels]
        exact htarget.2
      · cases decided <;> simp
    | false =>
      obtain ⟨u₂, hends₂, hkept₂, ho⟩ := h₂.runs hnodup₂ hl₁.2 hc₂ hm
        (hstable.kept hkept₁ (Nat.le_refl _) hknown)
      refine ⟨u₂, _, hends₁.append hends₂ ?_ ?_, ?_,
        hkept₁'.trans (hkept₂.mono ⟨h₁.le, Stm.le_of_canonicalize hc₁⟩ (.refl _)), ho⟩
      · rwa [Body.labels_append, hform₁.labels, hform₂.labels]
      · intro l hl
        rw [hform₁.labels]
        cases v with
        | true =>
          obtain rfl := Option.some.inj hl
          exact hl₁.1
        | false => cases hl
      · cases v <;> simp

/-- **A decision sets a temp** to one of two constants. -/
theorem Stm.Decides.sets {stms : List Stm} {lo' hi' k : Nat}
    (h : Stm.Decides host known lo' hi stms l₀ l₁ m) (hlo : lo ≤ lo') (hhi : hi ≤ hi')
    (hk : lo ≤ k) (hk' : k < hi') (name : String) (x y : Int64) (done : Label) :
    (Stm.seqAll (stms ++ Body.choice ⟨k, .plain name⟩ x y l₀ l₁ done)).Sets host known lo hi'
      ⟨k, .plain name⟩ (do return host.const (if ← m then y else x)) where
  le := Nat.le_trans hk (Nat.le_of_lt hk')
  runs hnodup a b c hc u v o hm hknown := by
    rw [Stm.labels_seqAll, flatMap_append] at hnodup
    replace hnodup : (stms.flatMap Stm.labels ++ [l₀, l₁, done]).Nodup := hnodup
    obtain ⟨code, s, tail, hcode, htail, hlinear⟩ := Stm.renders_append.mp
      (Stm.renders_seqAll.mp (Stm.renders_singleton.mpr ⟨c, hc, rfl⟩))
    obtain ⟨rfl, rfl⟩ : tail = Body.choice ⟨k, .plain name⟩ x y l₀ l₁ done ∧ s = b := by
      simp only [Body.choice, Stm.renders_cons_label, Stm.renders_cons_const,
        Stm.renders_cons_jump, Stm.renders_nil] at htail
      obtain ⟨_, ⟨_, ⟨_, ⟨_, ⟨_, ⟨_, ⟨rfl, rfl⟩, rfl⟩, rfl⟩, rfl⟩, rfl⟩, rfl⟩, rfl⟩ := htail
      exact ⟨rfl, rfl⟩
    have hlabels : Body.labels (code ++ Body.choice ⟨k, .plain name⟩ x y l₀ l₁ done) =
        stms.flatMap Stm.labels ++ [l₀, l₁, done] := by
      rw [Body.labels_append, hcode.labels, Body.labels_choice]
    obtain ⟨hnodup', -, hdisjoint⟩ := nodup_append.mp hnodup
    simp only [gives_bind, gives_pure] at hm
    obtain ⟨decided, o', hm, rfl, rfl⟩ := hm
    obtain ⟨u₁, exit, hends, hexit, hkept, ho⟩ := h.runs hnodup'
      (fun hmem => hdisjoint l₀ hmem l₀ (by simp) rfl)
      (fun hmem => hdisjoint l₁ hmem l₁ (by simp) rfl) hcode hm hknown
    have hkept' : KeptBetween ⟨lo, a.tempCount⟩ ⟨hi', s.tempCount⟩ u u₁ :=
      hkept.mono ⟨hlo, Nat.le_refl _⟩ ⟨hhi, Nat.le_refl _⟩
    have hset : ∀ v, KeptBetween ⟨lo, a.tempCount⟩ ⟨hi', s.tempCount⟩ u
        (u₁.set ⟨k, .plain name⟩ v) := fun v =>
      hkept'.trans (.set (fun hunder => Nat.not_lt.mpr hk (Temp.under_plain.mp hunder))
        (Temp.under_plain.mpr hk') u₁ v)
    rw [← hlabels] at hnodup
    rw [hlinear]
    obtain ⟨rfl, rfl⟩ | ⟨rfl, hexit⟩ := hexit
    · exact ⟨_, hends.choice_second hnodup, hset _, Function.update_self .., ho⟩
    · exact ⟨_, hends.choice_first hexit hnodup, hset _, Function.update_self .., ho⟩

end Decides

end TreeBackend
