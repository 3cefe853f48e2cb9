import TreeBackend.Proofs.BlockLayout
import TreeBackend.Proofs.CodeRuns
import TreeBackend.Proofs.Footprints

/-!
# Reblocked bodies run alike

Cutting a body into blocks and laying them out again leaves the body tidied up
(`Block.layout_cut`). This module compares the runs of the two bodies. Each
statement of the body is either still there or has become nothing, and it is
only a hop or a label that becomes nothing: neither does anything but pass
control to the statement after it – a hop, because its label is placed only
there.

Runs are compared with a record of what they perform: every statement but
jumps and labels, and with each branch where it went.
-/

namespace TreeBackend

open List Option

/-! ## What a body performs -/

section Performing

variable {V M : Type} (host : Host V M)

/-- What a statement performs: a jump and a label nothing, any other statement
itself, and a branch goes to its target or not. -/
def Stm.performed (stm : Stm) (w : World V M) : List (Stm × Option Label) := match stm with
  | .jump _ | .label _ => []
  | stm => [(stm, (stm.turn host w).1)]

/-- A statement sends control only to its target. -/
theorem Stm.target?_of_turn {host : Host V M} {stm : Stm} {w : World V M} {l : Label}
    (h : (stm.turn host w).1 = some l) : stm.target? = some l := by
  cases stm with
  | jump l' => exact h
  | cjump rel x y target =>
    replace h : (if _ then some target else none) = some l := h
    split at h
    · exact h
    · cases h
  | move | exp | label | seq => cases h

namespace Body

/-- What is performed in the next step. -/
def performed (body : List Stm) : State V M → List (Stm × Option Label)
  | ⟨.before index, w⟩ => body[index]?.elim [] fun stm => stm.performed host w
  | ⟨.away _, _⟩ => []

/-- A step of a body, with what has been performed so far. -/
def RecordedStep (body : List Stm) (x y : State V M × List (Stm × Option Label)) : Prop :=
  Step host body x.1 y.1 ∧ y.2 = x.2 ++ performed host body x.1

/-- The body, run from its first statement, comes to have **performed** the
record, whether it ends or not. -/
def Performs (body : List Stm) (w : World V M) (record : List (Stm × Option Label)) : Prop :=
  ∃ x, Relation.ReflTransGen (RecordedStep host body) (⟨.before 0, w⟩, []) x ∧ record <+: x.2

/-- The body, run from its first statement in the world `w`, passes its last
statement in the world `w'`, and has performed just the record. -/
def Finishes (body : List Stm) (w : World V M) (record : List (Stm × Option Label))
    (w' : World V M) : Prop :=
  Relation.ReflTransGen (RecordedStep host body) (⟨.before 0, w⟩, [])
    (⟨.before body.length, w'⟩, record)

variable {host}

/-- What has been performed stays performed. -/
theorem record_of_steps {body : List Stm} {x y : State V M × List (Stm × Option Label)}
    (h : Relation.ReflTransGen (RecordedStep host body) x y) : x.2 <+: y.2 := by
  induction h with
  | refl => exact prefix_rfl
  | tail _ hstep ih =>
    rw [hstep.2]
    exact ih.trans (prefix_append _ _)

end Body

end Performing

/-! ## The pieces of a tidied body -/

namespace Block

/-- What is left of a statement when the body is tidied up. -/
def leftover (used : List Label) (stm : Stm) (rest : List Stm) : List Stm :=
  if isHop stm rest then [] else [stm].filter (staysFor used)

/-- What is left of each statement. -/
def leftovers (used : List Label) : List Stm → List (List Stm)
  | [] => []
  | stm :: rest => leftover used stm rest :: leftovers used rest

theorem flatten_leftovers (used : List Label) (stms : List Stm) :
    (leftovers used stms).flatten = (withoutHops stms).filter (staysFor used) := by
  induction stms with
  | nil => rfl
  | cons stm rest ih =>
    rw [leftovers, flatten_cons, ih, leftover, withoutHops]
    split
    · rfl
    · rw [← filter_append]
      rfl

theorem tidied_eq (stms : List Stm) : tidied stms = (leftovers (usedLabels stms) stms).flatten :=
  (flatten_leftovers (usedLabels stms) stms).symm

theorem length_leftovers (used : List Label) (stms : List Stm) :
    (leftovers used stms).length = stms.length := by
  induction stms with
  | nil => rfl
  | cons stm rest ih => rw [leftovers, length_cons, length_cons, ih]

variable {k : Nat} {stm : Stm} {used : List Label} {l : Label}

theorem getElem?_leftovers (used : List Label) {stms : List Stm} (hk : stms[k]? = some stm) :
    (leftovers used stms)[k]? = some (leftover used stm (stms.drop (k + 1))) := by
  induction stms generalizing k with
  | nil => cases hk
  | cons stm' rest ih =>
    cases k with
    | zero =>
      obtain rfl := some.inj hk
      rfl
    | succ k => exact ih hk

/-- What is left of a statement: itself; nothing, of a hop; nothing, of a label
that is not used. -/
theorem leftover_cases (used : List Label) (stm : Stm) (rest : List Stm) :
    leftover used stm rest = [stm] ∨ isHop stm rest = true ∧ leftover used stm rest = [] ∨
      ∃ l, stm = .label l ∧ l ∉ used ∧ leftover used stm rest = [] := by
  unfold leftover
  split
  · next hhop => exact .inr (.inl ⟨hhop, rfl⟩)
  · cases hstays : staysFor used stm with
    | true => exact .inl (by rw [filter_cons, hstays]; rfl)
    | false =>
      cases stm with
      | label l =>
        exact .inr (.inr ⟨l, rfl, of_decide_eq_false hstays, by rw [filter_cons, hstays]; rfl⟩)
      | move | exp | jump | cjump | seq => cases hstays

theorem leftover_eq_or (used : List Label) (stm : Stm) (rest : List Stm) :
    leftover used stm rest = [stm] ∨ leftover used stm rest = [] := by
  obtain h | ⟨-, h⟩ | ⟨-, -, -, h⟩ := leftover_cases used stm rest
  · exact .inl h
  · exact .inr h
  · exact .inr h

/-- A label that is used is still there. -/
theorem leftover_label (hl : l ∈ used) (rest : List Stm) :
    leftover used (.label l) rest = [.label l] := by
  obtain h | ⟨hhop, -⟩ | ⟨l', heq, hl', -⟩ := leftover_cases used (.label l) rest
  · exact h
  · cases hhop
  · obtain rfl := Stm.label.inj heq
    exact absurd hl hl'

/-- A label that is used is found where what is left of it starts. -/
theorem place?_leftovers (hl : l ∈ used) (stms : List Stm) :
    Body.place? (leftovers used stms).flatten l =
      (Body.place? stms l).map (start (leftovers used stms)) := by
  refine findIdx?_flatten ?_
  induction stms with
  | nil => exact .nil
  | cons stm rest ih =>
    refine .cons ⟨fun hplaced => ?_, fun hplaced c hc => ?_⟩ ih
    · cases stm with
      | label l' =>
        obtain rfl := some.inj (of_decide_eq_true hplaced)
        exact ⟨_, [], leftover_label hl rest, hplaced⟩
      | move | exp | jump | cjump | seq => cases of_decide_eq_true hplaced
    · obtain h | h := leftover_eq_or used stm rest
      · rw [h, mem_singleton] at hc
        rw [hc]
        exact hplaced
      · rw [h] at hc
        cases hc

theorem landing_leftovers (hl : l ∈ used) (stms : List Stm) :
    Body.landing (leftovers used stms).flatten l =
      Body.startIn (leftovers used stms) (Body.landing stms l) := by
  unfold Body.landing
  rw [place?_leftovers hl]
  cases Body.place? stms l with
  | none | some => rfl

/-! ## Runs -/

variable {V M : Type} {used : List Label} {stms : List Stm}

/-- Both bodies at work: the tidied one is at what is left of the statement
where the other is, in the same world, and both have performed the same. -/
structure Alongside (used : List Label) (stms : List Stm)
    (x y : Body.State V M × List (Stm × Option Label)) : Prop where
  control : y.1.control = Body.startIn (leftovers used stms) x.1.control
  inside : ∀ index, x.1.control = .before index → index ≤ stms.length
  world : y.1.world = x.1.world
  record : y.2 = x.2

/-- A statement that is left stands where its piece starts. -/
theorem getElem?_flatten_leftovers (hk : stms[k]? = some stm)
    (hleft : leftover used stm (stms.drop (k + 1)) = [stm]) :
    (leftovers used stms).flatten[start (leftovers used stms) k]? = some stm := by
  have hpiece := getElem?_leftovers used hk
  rw [hleft] at hpiece
  exact getElem?_flatten_start hpiece (j := 0) Nat.zero_lt_one

/-- What is left jumps to labels that are used. -/
theorem mem_usedLabels (hk : stms[k]? = some stm)
    (hleft : leftover (usedLabels stms) stm (stms.drop (k + 1)) = [stm]) (hl : stm.target? = some l) :
    l ∈ usedLabels stms := by
  have hmem := mem_of_getElem? (getElem?_flatten_leftovers hk hleft)
  rw [flatten_leftovers] at hmem
  exact mem_filterMap.mpr ⟨stm, mem_of_mem_filter hmem, hl⟩

/-- A statement that is still there is performed in both bodies. -/
theorem recordedStep_leftovers (host : Host V M) (hk : stms[k]? = some stm)
    (hleft : leftover used stm (stms.drop (k + 1)) = [stm])
    (hused : ∀ {l}, stm.target? = some l → l ∈ used) (w : World V M)
    (record : List (Stm × Option Label)) :
    Body.RecordedStep host (leftovers used stms).flatten
      (⟨.before (start (leftovers used stms) k), w⟩, record)
      (⟨Body.startIn (leftovers used stms) (Body.onward stms k (stm.turn host w).1),
        (stm.turn host w).2⟩, record ++ stm.performed host w) := by
  have hpiece := hleft ▸ getElem?_leftovers used hk
  have hthere := getElem?_flatten_leftovers hk hleft
  refine ⟨?_, ?_⟩
  · rw [Body.Step, Body.step?, hthere, map_some]
    refine congrArg (fun control => some (Body.State.mk control _)) ?_
    cases hturn : (stm.turn host w).1 with
    | none =>
      show Control.before _ = .before (start (leftovers used stms) (k + 1))
      rw [start_succ hpiece]
      rfl
    | some l => exact landing_leftovers (hused (Stm.target?_of_turn hturn)) stms
  · rw [Body.performed, hthere]
    rfl

/-- A statement of which nothing is left passes control on. -/
theorem turn_of_leftover_eq_nil (host : Host V M) (hk : stms[k]? = some stm)
    (hleft : leftover used stm (stms.drop (k + 1)) = [])
    (honce : ∀ l, stm.target? = some l → (stms.filterMap Stm.placed?).count l = 1) (w : World V M) :
    Body.onward stms k (stm.turn host w).1 = .before (k + 1) ∧ (stm.turn host w).2 = w ∧
      stm.performed host w = [] := by
  obtain h | ⟨hhop, -⟩ | ⟨l, rfl, -⟩ := leftover_cases used stm (stms.drop (k + 1))
  · rw [h] at hleft
    cases hleft
  · obtain ⟨l, rest, rfl, hrest⟩ := isHop_iff.mp hhop
    refine ⟨?_, rfl, rfl⟩
    -- the label after the hop is the only one of its name
    have hnext : stms[k + 1]? = some (.label l) := by
      rw [← Nat.add_zero (k + 1), ← List.getElem?_drop, hrest]
      rfl
    show Body.landing stms l = .before (k + 1)
    rw [Body.landing, Body.place?_of_count (honce l rfl) hnext]
    rfl
  · exact ⟨rfl, rfl, rfl⟩

/-- **Simulation.** The tidied body simulates the body. -/
theorem tidied_simulation
    (honce : ∀ stm ∈ stms, ∀ l, stm.target? = some l → (stms.filterMap Stm.placed?).count l = 1)
    (host : Host V M) :
    Simulation (Body.RecordedStep host stms) (Body.RecordedStep host (tidied stms))
      (Alongside (usedLabels stms) stms) (fun x => Body.remaining stms x.1) where
  unique h h' := Prod.ext (some.inj (h.1.symm.trans h'.1)) (h.2.trans h'.2.symm)
  stop := by
    rintro ⟨⟨control, w⟩, record⟩ ⟨⟨control', u⟩, record'⟩ halong hstop y hstep
    obtain rfl := halong.control
    cases control with
    | away l => cases hstep.1
    | before index =>
      have hend : stms.length ≤ index := Body.length_le_of_stop
        fun c (hc : Body.Step host stms _ c) => hstop (c, _) ⟨hc, rfl⟩
      obtain rfl := Nat.le_antisymm (halong.inside index rfl) hend
      obtain ⟨c, hc, _⟩ := map_eq_some_iff.mp hstep.1
      rw [tidied_eq, ← length_leftovers (usedLabels stms), start_length,
        List.getElem?_eq_none (Nat.le_refl _)] at hc
      cases hc
  step := by
    rintro ⟨⟨control, w⟩, record⟩ ⟨⟨control', u⟩, record'⟩ ⟨x, record''⟩ halong ⟨hstep, hrecord⟩
    obtain rfl : control' = _ := halong.control
    obtain rfl : u = w := halong.world
    obtain rfl : record' = record := halong.record
    obtain rfl : record'' = _ := hrecord
    cases control with
    | away l => cases hstep
    | before index =>
      obtain ⟨stm, hstm, rfl⟩ := map_eq_some_iff.mp hstep
      have hlt : index < stms.length := (List.getElem?_eq_some_iff.mp hstm).1
      have hperformed : Body.performed host stms ⟨.before index, u⟩ = stm.performed host u := by
        rw [Body.performed, hstm]
        rfl
      rw [tidied_eq, hperformed]
      obtain hleft | hleft := leftover_eq_or (usedLabels stms) stm (stms.drop (index + 1))
      · have hstep := recordedStep_leftovers host hstm hleft (mem_usedLabels hstm hleft) u record'
        exact .inl ⟨_, .single hstep, rfl, Body.inside_onward hlt _, rfl, rfl⟩
      · -- a hop or a label nobody jumps to: control goes on, and less of the body remains
        obtain ⟨hgoes, hworld, hnothing⟩ := turn_of_leftover_eq_nil host hstm hleft
          (honce stm (mem_of_getElem? hstm)) u
        have hstart : start (leftovers (usedLabels stms) stms) (index + 1) =
            start (leftovers (usedLabels stms) stms) index := by
          rw [start_succ (getElem?_leftovers _ hstm), hleft]
          rfl
        refine .inr ⟨⟨?_, Body.inside_onward hlt _, hworld.symm, ?_⟩, ?_⟩
        · show Control.before _ = Body.startIn _ (Body.onward stms index (stm.turn host u).1)
          rw [hgoes, ← hstart]
          rfl
        · rw [hnothing, append_nil]
        · show Body.remaining stms ⟨Body.onward stms index (stm.turn host u).1, _⟩ < _
          rw [hgoes]
          exact Nat.sub_succ_lt_self _ _ hlt

theorem alongside_start (used : List Label) (stms : List Stm) (w : World V M) :
    Alongside used stms (⟨.before 0, w⟩, []) (⟨.before 0, w⟩, []) where
  control := rfl
  inside _ hindex := Control.before.inj hindex ▸ Nat.zero_le _
  world := rfl
  record := rfl

section Tidied

variable (honce : ∀ stm ∈ stms, ∀ l, stm.target? = some l →
  (stms.filterMap Stm.placed?).count l = 1) (host : Host V M) (w : World V M)

include honce

theorem performs_tidied (record : List (Stm × Option Label)) :
    Body.Performs host (tidied stms) w record ↔ Body.Performs host stms w record := by
  have hstart := alongside_start (usedLabels stms) stms w
  constructor
  · rintro ⟨y, hsteps, hprefix⟩
    obtain ⟨x, y', hsteps', hrest, halong⟩ := (tidied_simulation honce host).backward hstart hsteps
    refine ⟨x, hsteps', ?_⟩
    rw [← halong.record]
    exact hprefix.trans (Body.record_of_steps hrest)
  · rintro ⟨x, hsteps, hprefix⟩
    obtain ⟨y, hsteps', halong⟩ := (tidied_simulation honce host).forward hstart hsteps
    exact ⟨y, hsteps', halong.record ▸ hprefix⟩

theorem finishes_tidied (record : List (Stm × Option Label)) (w' : World V M) :
    Body.Finishes host (tidied stms) w record w' ↔ Body.Finishes host stms w record w' := by
  have hstart := alongside_start (usedLabels stms) stms w
  have hend : start (leftovers (usedLabels stms) stms) stms.length = (tidied stms).length := by
    rw [tidied_eq, ← start_length, length_leftovers]
  constructor
  · intro hfinishes
    have hstop : ∀ y, ¬ Body.RecordedStep host (tidied stms)
        (⟨.before (tidied stms).length, w'⟩, record) y := by
      rintro y ⟨hstep, -⟩
      obtain ⟨c, hc, _⟩ := map_eq_some_iff.mp hstep
      rw [List.getElem?_eq_none (Nat.le_refl _)] at hc
      cases hc
    obtain ⟨⟨⟨control, u⟩, record'⟩, hsteps, hstop', halong⟩ :=
      (tidied_simulation honce host).ends hstart hfinishes hstop
    obtain rfl : w' = u := halong.world
    obtain rfl : record = record' := halong.record
    cases control with
    | away l => cases halong.control
    | before index =>
      have hlength : stms.length ≤ index := Body.length_le_of_stop
        fun c (hc : Body.Step host stms _ c) => hstop' (c, _) ⟨hc, rfl⟩
      obtain rfl := Nat.le_antisymm (halong.inside index rfl) hlength
      exact hsteps
  · intro hfinishes
    obtain ⟨⟨⟨control, u⟩, record'⟩, hsteps, halong⟩ :=
      (tidied_simulation honce host).forward hstart hfinishes
    obtain rfl : u = w' := halong.world
    obtain rfl : record' = record := halong.record
    obtain rfl : control = _ := halong.control
    rw [Body.startIn, hend] at hsteps
    exact hsteps

end Tidied

/-! ## Targets -/

theorem mem_filterMap_placed? : l ∈ stms.filterMap Stm.placed? ↔ Stm.label l ∈ stms := by
  rw [mem_filterMap]
  constructor
  · rintro ⟨stm, hstm, hl⟩
    cases stm with
    | label l' =>
      obtain rfl := some.inj hl
      exact hstm
    | move | exp | jump | cjump | seq => cases hl
  · exact fun h => ⟨.label l, h, rfl⟩

/-- A tidied body places the labels of the body that are used. -/
theorem mem_placed_tidied : l ∈ (tidied stms).filterMap Stm.placed? ↔
      l ∈ usedLabels stms ∧ l ∈ stms.filterMap Stm.placed? := by
  rw [mem_filterMap_placed?, mem_filterMap_placed?]
  constructor
  · intro h
    obtain ⟨hmem, hstays⟩ := mem_filter.mp h
    exact ⟨of_decide_eq_true hstays, (withoutHops_sublist stms).subset hmem⟩
  · rintro ⟨hused, hmem⟩
    exact mem_filter.mpr ⟨mem_withoutHops_label hmem, decide_eq_true hused⟩

/-- In a tidied body every jump leads somewhere, and to one place only, if the
labels that are used are placed once. -/
theorem resolved_tidied (hcount : ∀ l ∈ usedLabels stms, (stms.filterMap Stm.placed?).count l = 1) :
    Footprint.Resolved ((tidied stms).map Stm.footprint) := by
  constructor
  · rw [Footprint.labels_body]
    refine nodup_iff_count_le_one.mpr fun l => ?_
    by_cases hl : l ∈ (tidied stms).filterMap Stm.placed?
    · have hone := hcount l (mem_placed_tidied.mp hl).1
      exact (((tidied_sublist stms).filterMap _).count_le l).trans hone.le
    · rw [count_eq_zero_of_not_mem hl]
      exact Nat.zero_le 1
  · rw [Footprint.labels_body, Footprint.jumps_body, filterMap_target?_tidied]
    intro l hl
    have hmem : l ∈ stms.filterMap Stm.placed? :=
      count_pos_iff.mp (by rw [hcount l hl]; exact Nat.one_pos)
    exact mem_placed_tidied.mpr ⟨hl, hmem⟩

/-- A body whose targets are known is reblocked to itself, tidied up, if the jumps of
that are resolved. -/
theorem yields_reblockBy {pick : List Label → Option Label} (hpick : Label.Picks pick) {s : Session}
    (hknown : ∀ stm ∈ stms, ∀ l, stm.target? = some l → l ∈ s.labels)
    (hresolved : Footprint.Resolved ((tidied stms).map Stm.footprint)) :
    Yields (reblockBy pick stms) s (tidied stms) ((cut stms).run s).2 := by
  have hchecked : Yields (checkTargetsBy pick (tidied stms) : CompileM Unit) ((cut stms).run s).2 ()
      ((cut stms).run s).2 := by
    rw [(checkTargetsBy_eq_ok_iff hpick).mpr hresolved]
    rfl
  simp only [reblockBy, yields_bind, yields_lift, yields_pure]
  refine ⟨((cut stms).run s).1, ((cut stms).run s).2, rfl, ?_⟩
  rw [layout_cut hknown]
  exact ⟨(), _, hchecked, rfl, rfl⟩

/-- A body whose targets are known and placed once is reblocked to itself,
tidied up. -/
theorem yields_reblock {s : Session}
    (hknown : ∀ stm ∈ stms, ∀ l, stm.target? = some l → l ∈ s.labels)
    (honce : ∀ stm ∈ stms, ∀ l, stm.target? = some l → (stms.filterMap Stm.placed?).count l = 1) :
    Yields (reblock stms) s (tidied stms) ((cut stms).run s).2 := by
  refine yields_reblockBy Label.picks_firstRepeated hknown (resolved_tidied fun l hl => ?_)
  obtain ⟨stm, hstm, hl⟩ := mem_filterMap.mp hl
  exact honce stm ((withoutHops_sublist stms).subset hstm) l hl

/-- **Reblocked bodies run alike.** Let every label that a body jumps to be
known to the session and placed exactly once; labels that nothing jumps to may
be placed any number of times. Then the body is reblocked, and under every
host, from every world, the body and what comes out

* perform the same statements in the same order, with the same outcome of every
  branch, whether they end or not;
* pass their last statement alike – in the same world, having performed the
  same – or both go on for ever. -/
theorem reblock_preserves_runs {stms : List Stm} {s : Session}
    (hknown : ∀ l ∈ stms.filterMap Stm.target?, l ∈ s.labels)
    (honce : ∀ l ∈ stms.filterMap Stm.target?, (stms.filterMap Stm.placed?).count l = 1) :
    ∃ out s', (reblock stms).run.run s = (.ok out, s') ∧
      ∀ {V M : Type} (host : Host V M) (w : World V M),
        (∀ record, Body.Performs host out w record ↔ Body.Performs host stms w record) ∧
        ∀ record w', Body.Finishes host out w record w' ↔ Body.Finishes host stms w record w' := by
  have htarget : ∀ stm ∈ stms, ∀ l, stm.target? = some l → l ∈ stms.filterMap Stm.target? :=
    fun stm hstm l hl => mem_filterMap.mpr ⟨stm, hstm, hl⟩
  have hknown' := fun stm hstm l hl => hknown l (htarget stm hstm l hl)
  have honce' := fun stm hstm l hl => honce l (htarget stm hstm l hl)
  exact ⟨tidied stms, _, yields_reblock hknown' honce',
    fun host w => ⟨performs_tidied honce' host w, finishes_tidied honce' host w⟩⟩

/-- A loop with a hop into it, a label that nothing jumps to and that stands
twice, code that is never reached, labels in a row, and a branch at the end. -/
def tangledLoop : List Stm := let i : Exp := .temp ⟨7, .plain "i"⟩
  [.jump ⟨"test"⟩, .label ⟨"test"⟩, .label ⟨"spare"⟩, .move i (.binop .minus i (.const 1)),
    .cjump .lt i (.const 0) ⟨"out"⟩, .label ⟨"spare"⟩, .jump ⟨"test"⟩,
    .exp (.call (.name ⟨"f"⟩) [i]), .label ⟨"out"⟩, .label ⟨"end"⟩, .cjump .eq i (.const 7) ⟨"end"⟩]

/-- The tangled loop is reblocked and runs as before. -/
theorem reblock_preserves_runs_tangledLoop :
    let s : Session := .ofLabels ["f", "test", "spare", "out", "end"]
    ((∀ l ∈ tangledLoop.filterMap Stm.target?, l ∈ s.labels) ∧
      ∀ l ∈ tangledLoop.filterMap Stm.target?, (tangledLoop.filterMap Stm.placed?).count l = 1) ∧
    ∃ out s', (reblock tangledLoop).run.run s = (.ok out, s') ∧
      ∀ {V M : Type} (host : Host V M) (w : World V M),
        (∀ record, Body.Performs host out w record ↔ Body.Performs host tangledLoop w record) ∧
        ∀ record w',
          Body.Finishes host out w record w' ↔ Body.Finishes host tangledLoop w record w' :=
  ⟨⟨by decide, by decide⟩, reblock_preserves_runs (by decide) (by decide)⟩

end Block

end TreeBackend
