import TreeBackend.Proofs.Linearization
import Mathlib.Data.List.Nodup

/-!
# Runs of code put together

A body that is run by itself may leave for a label that it does not place. Put
between other statements, it runs just the same (`Body.steps_within`): control
moves along with the statements, and where the body would have left, control
goes wherever the whole places the label – as long as the statements before the
body place none of its labels.

From this follows how the runs of pieces make up the run of a whole: one after
the other (`Ends.append`), by a jump forward over some statements
(`Ends.land`), or by a jump back to the beginning (`Ends.again`).
-/

namespace TreeBackend

open List Option

namespace Body

/-- The labels that a body places, in order. -/
def labels (body : List Stm) : List Label := body.filterMap Stm.placed?

@[simp, grind =] theorem labels_append (body body' : List Stm) :
    labels (body ++ body') = labels body ++ labels body' := filterMap_append

@[simp, grind =] theorem labels_nil : labels [] = [] := rfl

@[simp, grind =] theorem labels_cons_label (l : Label) (body : List Stm) :
    labels (.label l :: body) = l :: labels body := rfl

@[simp, grind =] theorem labels_cons_jump (l : Label) (body : List Stm) :
    labels (.jump l :: body) = labels body := rfl

variable {body : List Stm} {l : Label}

/-- A label has a place if it is one of the labels. -/
theorem place?_eq_none_iff : place? body l = none ↔ l ∉ labels body := by
  rw [place?, List.findIdx?_eq_none_iff, labels, mem_filterMap]
  simp

/-- The only place of a label. -/
theorem place?_of_count {k : Nat} (honce : (labels body).count l = 1)
    (hk : body[k]? = some (.label l)) : place? body l = some k := by
  induction body generalizing k with
  | nil => cases hk
  | cons stm body ih =>
    rw [place?, List.findIdx?_cons]
    cases k with
    | zero =>
      obtain rfl := some.inj hk
      exact if_pos (decide_eq_true rfl)
    | succ k =>
      have hmem : l ∈ labels body := mem_filterMap.mpr ⟨.label l, mem_of_getElem? hk, rfl⟩
      have hne : stm.placed? ≠ some l := by
        intro hplaced
        have := count_pos_iff.mpr hmem
        rw [labels, filterMap_cons_some hplaced, count_cons_self, ← labels] at honce
        omega
      have honce' : (labels body).count l = 1 := by
        cases hplaced : stm.placed? with
        | none => rwa [labels, filterMap_cons_none hplaced] at honce
        | some l' =>
          rw [labels, filterMap_cons_some hplaced, count_cons_of_ne] at honce
          · exact honce
          · rintro rfl
            exact hne hplaced
      rw [if_neg (by simpa using hne), ← place?, ih honce' hk]
      rfl

/-- Where a label stands if no label stands twice. -/
theorem landing_of_nodup {pre post : List Stm} (h : (labels (pre ++ .label l :: post)).Nodup) :
    landing (pre ++ .label l :: post) l = .before pre.length := by
  have hplace : place? (pre ++ .label l :: post) l = some pre.length := by
    refine place?_of_count (count_eq_one_of_mem h ?_) ?_
    · rw [labels_append, labels_cons_label]
      exact mem_append_right _ mem_cons_self
    · rw [List.getElem?_append_right (Nat.le_refl _), Nat.sub_self]
      rfl
  rw [landing, hplace]
  rfl

/-- Control leaves code for a label that the code does not place. -/
theorem landing_of_notMem (h : l ∉ labels body) : landing body l = .away l := by
  rw [landing, place?_eq_none_iff.mpr h]
  rfl

/-! ## Code within code -/

section Within

variable {V M : Type} {host : Host V M} {pre code post : List Stm}

/-- The place in the whole for a place in the code. -/
def within (pre code post : List Stm) : Control → Control
  | .before index => .before (pre.length + index)
  | .away l => landing (pre ++ code ++ post) l

/-- A jump leads to the same place, wherever the code stands. -/
theorem landing_within (h : (labels pre).Disjoint (labels code)) (l : Label) :
    landing (pre ++ code ++ post) l = within pre code post (landing code l) := by
  cases hplace : place? code l with
  | none =>
    have hcode : landing code l = .away l := by rw [landing, hplace]; rfl
    rw [hcode]
    rfl
  | some k =>
    have hpre : place? pre l = none := by
      refine place?_eq_none_iff.mpr fun hmem => h hmem ?_
      by_contra hnot
      rw [place?_eq_none_iff.mpr hnot] at hplace
      cases hplace
    have hwhole : place? (pre ++ code ++ post) l = some (k + pre.length) := by
      unfold place? at hpre hplace ⊢
      rw [List.findIdx?_append, List.findIdx?_append, hpre, hplace]
      rfl
    rw [landing, landing, hplace, hwhole, Nat.add_comm k]
    rfl

/-- **A step of code is a step of code around it**, if labels are not hidden. -/
theorem step_within (h : (labels pre).Disjoint (labels code)) {c c' : State V M}
    (hstep : Step host code c c') :
    Step host (pre ++ code ++ post) ⟨within pre code post c.control, c.world⟩
      ⟨within pre code post c'.control, c'.world⟩ := by
  obtain ⟨control, w⟩ := c
  cases control with
  | away l => cases hstep
  | before index =>
    obtain ⟨stm, hstm, rfl⟩ := map_eq_some_iff.mp hstep
    have hlt : index < code.length := (List.getElem?_eq_some_iff.mp hstm).1
    have hwhole : (pre ++ code ++ post)[pre.length + index]? = some stm := by
      rw [List.getElem?_append_left (by rw [length_append]; omega),
        List.getElem?_append_right (Nat.le_add_right _ _), Nat.add_sub_cancel_left, hstm]
    show (pre ++ code ++ post)[pre.length + index]?.map _ = _
    rw [hwhole, map_some]
    refine congrArg (fun control => some (State.mk control _)) ?_
    show onward (pre ++ code ++ post) (pre.length + index) (stm.turn host w).1 =
      within pre code post (onward code index (stm.turn host w).1)
    cases (stm.turn host w).1 with
    | none => rfl
    | some l => exact landing_within h l

/-- **Code runs the same within a whole**, if what comes before it places none
of its labels. -/
theorem steps_within (pre post : List Stm) (h : (labels pre).Disjoint (labels code))
    {c c' : State V M} (hsteps : Relation.ReflTransGen (Step host code) c c') :
    Relation.ReflTransGen (Step host (pre ++ code ++ post))
      ⟨within pre code post c.control, c.world⟩ ⟨within pre code post c'.control, c'.world⟩ :=
  Relation.ReflTransGen.lift
    (fun c : State V M => State.mk (within pre code post c.control) c.world)
    (fun _ _ => step_within h) _ _ hsteps

end Within

/-! ## Runs put together -/

namespace Ends

variable {V M : Type} {host : Host V M} {c₁ c₂ c₃ : List Stm} {w w₁ w' : World V M}
  {exit : Option Label} {l : Label}

/-- A body leaves only for labels that it does not place. -/
theorem notMem_labels (h : Ends host c₁ w (some l) w') : l ∉ labels c₁ := by
  obtain heq | ⟨⟨control, u⟩, -, hlast⟩ := Relation.ReflTransGen.cases_tail h
  · cases congrArg State.control heq
  · cases control with
    | away l' => cases hlast
    | before index =>
      obtain ⟨stm, -, hlast⟩ := map_eq_some_iff.mp hlast
      replace hlast : onward c₁ index (stm.turn host u).1 = .away l := congrArg State.control hlast
      cases hturn : (stm.turn host u).1 with
      | none =>
        rw [hturn] at hlast
        cases hlast
      | some l' =>
        rw [hturn] at hlast
        intro hmem
        cases hplace : place? c₁ l' with
        | none =>
          replace hlast : (place? c₁ l').elim (.away l') .before = Control.away l := hlast
          rw [hplace] at hlast
          obtain rfl := Control.away.inj hlast
          exact place?_eq_none_iff.mp hplace hmem
        | some k =>
          replace hlast : (place? c₁ l').elim (.away l') .before = Control.away l := hlast
          rw [hplace] at hlast
          cases hlast

/-- The end of a run, seen from a whole that ends with the code. -/
theorem steps_suffix (h : Ends host c₂ w exit w') (hdisjoint : (labels c₁).Disjoint (labels c₂))
    (hexit : ∀ l ∈ exit, l ∉ labels c₁) :
    Relation.ReflTransGen (Step host (c₁ ++ c₂)) ⟨.before c₁.length, w⟩
      ⟨exit.elim (.before (c₁ ++ c₂).length) .away, w'⟩ := by
  have hsteps := steps_within c₁ [] hdisjoint h
  have hend : within c₁ c₂ [] (exit.elim (.before c₂.length) .away) =
      exit.elim (.before (c₁ ++ c₂).length) .away := by
    cases exit with
    | none => exact congrArg Control.before length_append.symm
    | some l =>
      refine landing_of_notMem ?_
      rw [append_nil, labels_append, mem_append, not_or]
      exact ⟨hexit l rfl, h.notMem_labels⟩
  rw [hend, append_nil] at hsteps
  exact hsteps

/-- **One after the other.** -/
theorem append (h₁ : Ends host c₁ w none w₁) (h₂ : Ends host c₂ w₁ exit w')
    (hnodup : (labels (c₁ ++ c₂)).Nodup) (hexit : ∀ l ∈ exit, l ∉ labels c₁) :
    Ends host (c₁ ++ c₂) w exit w' := by
  rw [labels_append] at hnodup
  have hfirst := steps_within [] c₂ (fun _ h => absurd h not_mem_nil) h₁
  replace hfirst : Relation.ReflTransGen (Step host (c₁ ++ c₂)) ⟨.before 0, w⟩
      ⟨.before (0 + c₁.length), w₁⟩ := hfirst
  rw [Nat.zero_add] at hfirst
  exact hfirst.trans (h₂.steps_suffix (disjoint_of_nodup_append hnodup) hexit)

/-- What leaves goes on leaving if more statements follow. -/
theorem leave (h : Ends host c₁ w (some l) w') (c₂ : List Stm) (hl : l ∉ labels c₂) :
    Ends host (c₁ ++ c₂) w (some l) w' := by
  have hsteps := steps_within [] c₂ (fun _ h => absurd h not_mem_nil) h
  have hend : within [] c₁ c₂ (.away l) = .away l := by
    refine landing_of_notMem ?_
    rw [nil_append, labels_append, mem_append, not_or]
    exact ⟨h.notMem_labels, hl⟩
  replace hsteps : Relation.ReflTransGen (Step host ([] ++ c₁ ++ c₂)) ⟨.before 0, w⟩
      ⟨within [] c₁ c₂ (.away l), w'⟩ := hsteps
  rw [hend] at hsteps
  exact hsteps

/-- **A jump forward**, over some statements, to a label. -/
theorem land (h₁ : Ends host c₁ w (some l) w₁) (c₂ : List Stm) (h₃ : Ends host c₃ w₁ exit w')
    (hnodup : (labels (c₁ ++ (c₂ ++ .label l :: c₃))).Nodup)
    (hexit : ∀ l' ∈ exit, l' ∉ labels (c₁ ++ (c₂ ++ [.label l]))) :
    Ends host (c₁ ++ (c₂ ++ .label l :: c₃)) w exit w' := by
  have hfirst := steps_within [] (c₂ ++ Stm.label l :: c₃) (fun _ h => absurd h not_mem_nil) h₁
  have hwhole : c₁ ++ (c₂ ++ .label l :: c₃) = (c₁ ++ (c₂ ++ [.label l])) ++ c₃ := by simp
  have hland : within [] c₁ (c₂ ++ .label l :: c₃) (.away l) = .before (c₁ ++ c₂).length := by
    show landing (c₁ ++ (c₂ ++ .label l :: c₃)) l = _
    rw [← append_assoc] at hnodup ⊢
    exact landing_of_nodup hnodup
  have hlabel : Step host (c₁ ++ (c₂ ++ .label l :: c₃)) ⟨.before (c₁ ++ c₂).length, w₁⟩
      ⟨.before (c₁ ++ (c₂ ++ [Stm.label l])).length, w₁⟩ := by
    rw [Step, step?, ← append_assoc, List.getElem?_append_right (Nat.le_refl _), Nat.sub_self]
    simp [Stm.turn, Stm.exec, onward, Nat.add_assoc]
  replace hfirst : Relation.ReflTransGen (Step host (c₁ ++ (c₂ ++ .label l :: c₃))) ⟨.before 0, w⟩
      ⟨within [] c₁ (c₂ ++ .label l :: c₃) (.away l), w₁⟩ := hfirst
  rw [hland] at hfirst
  refine (hfirst.tail hlabel).trans ?_
  rw [hwhole, labels_append] at hnodup
  rw [hwhole]
  exact h₃.steps_suffix (disjoint_of_nodup_append hnodup) hexit

/-- **A jump back** to the label that the code begins with. -/
theorem again (h₁ : Ends host c₁ w (some l) w₁) (h₂ : Ends host (.label l :: (c₁ ++ c₂)) w₁ exit w')
    (hnodup : (labels (.label l :: (c₁ ++ c₂))).Nodup) :
    Ends host (.label l :: (c₁ ++ c₂)) w exit w' := by
  have hdisjoint : (labels [.label l]).Disjoint (labels c₁) := by
    rw [labels_cons_label, labels_append, nodup_cons, mem_append, not_or] at hnodup
    intro l' hl' hmem
    obtain rfl := mem_singleton.mp hl'
    exact hnodup.1.1 hmem
  have hfirst := steps_within [.label l] c₂ hdisjoint h₁
  have hland : landing ([] ++ .label l :: (c₁ ++ c₂)) l = .before 0 := landing_of_nodup hnodup
  replace hfirst : Relation.ReflTransGen (Step host (.label l :: (c₁ ++ c₂))) ⟨.before 1, w⟩
      ⟨within [.label l] c₁ c₂ (.away l), w₁⟩ := hfirst
  replace hland : within [.label l] c₁ c₂ (.away l) = .before 0 := hland
  rw [hland] at hfirst
  exact .head rfl (hfirst.trans h₂)

/-! ## Runs of single statements -/

/-- Control is at the end of no code from the start. -/
theorem nil (w : World V M) : Ends host [] w none w := .refl

/-- Hence no code changes nothing. -/
theorem eq_of_nil (h : Ends host [] w none w') : w' = w := by
  refine congrArg State.world (eq_of_steps h fun c hstep => ?_)
  cases hstep

/-- A label is passed. -/
theorem label (l : Label) (w : World V M) : Ends host [.label l] w none w := .single rfl

/-- A jump leaves for its label. -/
theorem jump (l : Label) (w : World V M) : Ends host [.jump l] w (some l) w := .single rfl

/-- Code and a jump after it. -/
theorem then_jump (h : Ends host c₁ w none w') (hnodup : (labels c₁).Nodup) (hl : l ∉ labels c₁) :
    Ends host (c₁ ++ [.jump l]) w (some l) w' := by
  refine h.append (.jump l w') ?_ ?_
  · rw [labels_append]
    exact (append_nil _).symm ▸ hnodup
  · rintro _ ⟨⟩
    exact hl

/-- A move changes the world as it says, and control goes on. -/
theorem move (dst src : Exp) (w : World V M) :
    Ends host [.move dst src] w none ((Stm.move dst src).exec host w) := .single rfl

/-- An expression is evaluated for its effects. -/
theorem exp (e : Exp) (w : World V M) : Ends host [.exp e] w none (e.eval host w).2 := .single rfl

/-- A branch on pure operands goes to its target or on. -/
theorem cjump {rel : RelOp} {x y : Exp} (hx : x.isPure = true) (hy : y.isPure = true)
    (target : Label) (w : World V M) :
    Ends host [.cjump rel x y target] w
      (if host.holds rel (x.eval host w).1 (y.eval host w).1 then some target else none) w := by
  refine .single ?_
  have hturn : (Stm.cjump rel x y target).turn host w =
      (if host.holds rel (x.eval host w).1 (y.eval host w).1 then some target else none, w) := by
    rw [Stm.turn, Exp.eval_snd_of_isPure hx, Exp.eval_snd_of_isPure hy]
  show (some _).map _ = _
  rw [map_some, hturn]
  cases host.holds rel (x.eval host w).1 (y.eval host w).1 <;> rfl

end Ends

end Body

end TreeBackend
