import TreeBackend.Alloc.Allocation
import TreeBackend.Proofs.Footprints
import TreeBackend.Proofs.SpillRoutes

/-!
# Rounds of spilling

The loop of register allocation colours the code, spills what was left without a
colour, and starts over. `Allocation.Rounds` says which states of the loop
follow one another, so that what every round keeps holds whenever a round
begins.

Spilling adds loads and stores and renames temps. It does not touch labels and
jumps, so code whose jumps are resolved has them resolved in every round, and
the only analysis that can fail is the first one: the loop ends with the
allocation of its last round (`Allocation.exists_iterate`), or it fails as the
analysis of the given code does (`Allocation.failsWith_iterate`).
-/

namespace TreeBackend

open List Footprint SpillCode

/-! ## Labels and jumps of spill code -/

/-- The code places the same labels as other code, and jumps to the same. -/
structure SameJumps (code code' : List Instruction) : Prop where
  labels : labels (code'.map Instruction.footprint) = labels (code.map Instruction.footprint)
  jumps : jumps (code'.map Instruction.footprint) = jumps (code.map Instruction.footprint)

namespace SameJumps

variable {code code' code'' more more' : List Instruction}

@[refl] theorem refl (code : List Instruction) : SameJumps code code := ⟨rfl, rfl⟩

theorem trans (h : SameJumps code code') (h' : SameJumps code' code'') : SameJumps code code'' :=
  ⟨h'.labels.trans h.labels, h'.jumps.trans h.jumps⟩

theorem append (h : SameJumps code code') (h' : SameJumps more more') :
    SameJumps (code ++ more) (code' ++ more') := by
  constructor
  · rw [map_append, map_append, labels_append, labels_append, h.labels, h'.labels]
  · rw [map_append, map_append, jumps_append, jumps_append, h.jumps, h'.jumps]

theorem resolved (h : SameJumps code code') (hcode : Resolved (code.map Instruction.footprint)) :
    Resolved (code'.map Instruction.footprint) :=
  hcode.congr h.labels h.jumps

/-- An instruction with the same label and the same targets comes first. -/
theorem cons {i j : Instruction} (hlabel : j.label? = i.label?) (htargets : j.targets = i.targets)
    (h : SameJumps code code') : SameJumps (i :: code) (j :: code') := by
  constructor
  · rw [map_cons, map_cons, labels_cons, labels_cons, h.labels]
    exact congrArg (·.toList ++ _) hlabel
  · rw [map_cons, map_cons, jumps_cons, jumps_cons, h.jumps]
    exact congrArg (· ++ _) htargets

/-- An instruction that has neither makes no difference. -/
theorem plain {i : Instruction} (hlabel : i.label? = none) (htargets : i.targets = []) :
    SameJumps [] [i] := by
  constructor
  · rw [labels_code, filterMap_cons_none hlabel]
    rfl
  · rw [jumps_code]
    simp [htargets]

end SameJumps

namespace SpillCode

/-- Replacing a temp keeps the label and the targets. -/
theorem sameJumps_replace (w : Wrapped) (t fresh : Temp) (offset : Int64) :
    SameJumps w.toList (w.replace t fresh offset).toList := by
  -- first the reads, with a load in front
  have huses : SameJumps w.toList (w.before ++ [.load fresh (slotAddress offset)]
        ++ w.instruction.renameUses t fresh :: w.after) := by
    have hload : SameJumps w.before (w.before ++ [.load fresh (slotAddress offset)]) := by
      simpa using (SameJumps.refl w.before).append (.plain (i := .load fresh _) rfl rfl)
    exact hload.append (.cons rfl rfl (.refl w.after))
  -- then the writes, with a store behind
  have hdefs (v : Wrapped) : SameJumps v.toList (v.before ++ v.instruction.renameDefs t fresh
        :: (v.after ++ [.store (slotAddress offset) fresh])) := by
    have hstore : SameJumps v.after (v.after ++ [.store (slotAddress offset) fresh]) := by
      simpa using (SameJumps.refl v.after).append (.plain (i := .store _ fresh) rfl rfl)
    exact (SameJumps.refl v.before).append (.cons rfl rfl hstore)
  unfold Wrapped.replace
  by_cases ht : t ∈ w.instruction.uses
  · rw [if_pos ht]
    dsimp only
    split
    · exact huses.trans (hdefs ⟨_, _, _⟩)
    · exact huses
  · rw [if_neg ht]
    dsimp only
    split
    · exact hdefs w
    · exact .refl _

theorem replaceAll_keeps (slots : TempMap Int64) {ts temps : List Temp} {w w' : Wrapped}
    {u u' : Session} (h : (replaceAll slots ts w).run u = ((w', temps), u')) :
    SameJumps w.toList w'.toList ∧ u.DrawsTemps u' := by
  induction ts generalizing w u temps with
  | nil =>
    obtain ⟨heq, rfl⟩ := run_pure_eq_iff.mp h
    obtain ⟨rfl, -⟩ := Prod.mk.inj heq
    exact ⟨.refl _, .refl _⟩
  | cons t ts ih =>
    rw [replaceAll] at h
    cases hslot : slots[t]? with
    | none =>
      rw [hslot] at h
      exact ih h
    | some offset =>
      rw [hslot] at h
      obtain ⟨fresh, u₁, hfresh, h⟩ := run_bind_eq_iff.mp h
      obtain ⟨⟨v, more⟩, u₂, hrest, h⟩ := run_bind_eq_iff.mp h
      obtain ⟨heq, rfl⟩ := run_pure_eq_iff.mp h
      obtain ⟨rfl, -⟩ := Prod.mk.inj heq
      obtain ⟨-, rfl⟩ := Prod.mk.inj hfresh
      obtain ⟨hjumps, hdraws⟩ := ih hrest
      exact ⟨(sameJumps_replace w t fresh offset).trans hjumps,
        ⟨Nat.le_of_succ_le hdraws.le, hdraws.labels, hdraws.config⟩⟩

theorem routeAll_keeps (slots : TempMap Int64) {code code' : List Instruction} {temps : List Temp}
    {u u' : Session} (h : (routeAll slots code).run u = ((code', temps), u')) :
    SameJumps code code' ∧ u.DrawsTemps u' := by
  induction code generalizing u temps code' with
  | nil =>
    obtain ⟨heq, rfl⟩ := run_pure_eq_iff.mp h
    obtain ⟨rfl, -⟩ := Prod.mk.inj heq
    exact ⟨.refl _, .refl _⟩
  | cons i code ih =>
    obtain ⟨⟨w, drawn⟩, u₁, hfirst, h⟩ := run_bind_eq_iff.mp h
    obtain ⟨⟨rest, more⟩, u₂, hrest, h⟩ := run_bind_eq_iff.mp h
    obtain ⟨heq, rfl⟩ := run_pure_eq_iff.mp h
    obtain ⟨rfl, -⟩ := Prod.mk.inj heq
    obtain ⟨hjumps, hdraws⟩ := replaceAll_keeps slots hfirst
    obtain ⟨hjumps', hdraws'⟩ := ih hrest
    exact ⟨hjumps.append hjumps', hdraws.trans hdraws'⟩

end SpillCode

namespace Allocation

variable {registers : Nat}

variable {p p' : Progress} {temps : List Temp} {s s' : Session} {bound : Nat}

/-- What spilling makes of the progress, once every instruction is routed. -/
theorem Progress.exists_routeAll_of_spill (h : (p.spill temps).run s = (p', s')) :
    ∃ instructions drawn,
      (SpillCode.routeAll (SpillCode.reserve temps ∅ p.frame).1 p.instructions).run
          { s with stats := s.stats.addSpillRound temps.length } = ((instructions, drawn), s') ∧
        p' = {
          instructions
          frame := (SpillCode.reserve temps ∅ p.frame).2
          spilled := p.spilled ++ temps
          slots := (SpillCode.reserve temps ∅ p.frame).1.foldl
            (fun slots t offset => slots.insert t offset) p.slots
          spillTemps := drawn.foldl (fun set t => set.insert t) p.spillTemps
          rounds := p.rounds + 1 } := by
  obtain ⟨_, s₁, hcount, h⟩ := run_bind_eq_iff.mp h
  obtain ⟨⟨code, frame⟩, s₂, hcode, h⟩ := run_bind_eq_iff.mp h
  obtain ⟨rfl, rfl⟩ := run_pure_eq_iff.mp h
  obtain ⟨-, rfl⟩ := Prod.mk.inj hcount
  obtain ⟨⟨instructions, drawn⟩, s₃, hroute, h⟩ := run_bind_eq_iff.mp hcode
  obtain ⟨heq, rfl⟩ := run_pure_eq_iff.mp h
  obtain ⟨rfl, rfl⟩ := Prod.mk.inj heq
  exact ⟨instructions, drawn, hroute, rfl⟩

theorem Progress.spill_keeps (h : (p.spill temps).run s = (p', s')) :
    SameJumps p.instructions p'.instructions ∧ s.DrawsTemps s' := by
  obtain ⟨_, _, hroute, rfl⟩ := exists_routeAll_of_spill h
  obtain ⟨hjumps, hdraws⟩ := routeAll_keeps _ hroute
  exact ⟨hjumps, ⟨hdraws.le, hdraws.labels, hdraws.config⟩⟩

/-- **One round of spilling** code whose temps the session owns: each temp gets a
word of the frame, and every instruction is sent over detours to those words. -/
theorem Progress.of_spill (howned : ∀ i ∈ p.instructions, i.OwnedBy s)
    (h : (p.spill temps).run s = (p', s')) :
    ∃ routes, List.Forall₂ (SpillCode.Detours (SpillCode.reserve temps ∅ p.frame).1 s)
        p.instructions routes ∧
      (∀ d ∈ routes.flatten, s'.Owns d.fresh) ∧
      p' = {
        instructions := (SpillCode.pieces p.instructions routes).flatten
        frame := (SpillCode.reserve temps ∅ p.frame).2
        spilled := p.spilled ++ temps
        slots := (SpillCode.reserve temps ∅ p.frame).1.foldl
          (fun slots t offset => slots.insert t offset) p.slots
        spillTemps := (routes.flatten.map (·.fresh)).foldl (fun set t => set.insert t) p.spillTemps
        rounds := p.rounds + 1 } := by
  obtain ⟨instructions, drawn, hroute, rfl⟩ := exists_routeAll_of_spill h
  obtain ⟨routes, hroutes, hfresh, hrun⟩ := routeAll_run (SpillCode.reserve temps ∅ p.frame).1
    (u := { s with stats := s.stats.addSpillRound temps.length })
    howned (Nat.le_refl _)
  obtain ⟨heq, rfl⟩ := Prod.mk.inj (hroute.symm.trans hrun)
  obtain ⟨rfl, rfl⟩ := Prod.mk.inj heq
  refine ⟨routes, hroutes, fun d hd => ?_, rfl⟩
  obtain ⟨n, hn, heq⟩ := exists_spillTemp_eq hfresh hd
  rw [heq]
  exact hn.2.trans_eq (tempCount_drawing ..).symm

/-! ## One round -/

/-- What a round finds out: the live sets of the code, and the colouring of its
interference graph that keeps the temps of spill code from being spilled. -/
theorem of_attempt {round : Round} {u : Session} (h : Yields (attempt p registers) s round u) :
    ∃ flow, Flow.ofCode p.instructions = .ok flow ∧ round.liveness = Liveness.solve flow.toArray ∧
      (round.coloring, round.interference)
        = (Interference.build p.instructions round.liveness registers).colorAvoiding registers
            p.spillTemps ∧
      s.DrawsTemps u ∧ u.tempCount = s.tempCount := by
  simp only [attempt, Liveness.analyze, yields_bind, yields_liftExcept, yields_lift,
    yields_pure] at h
  obtain ⟨l, u₁, ⟨flow, u₂, ⟨hflow, rfl⟩, _, u₃, hcount, rfl, rfl⟩, _, u₄, hcount', rfl, rfl⟩ := h
  obtain ⟨-, rfl⟩ := Prod.mk.inj hcount
  obtain ⟨-, rfl⟩ := Prod.mk.inj hcount'
  exact ⟨flow, hflow, rfl, rfl, ⟨Nat.le_refl _, rfl, rfl⟩, rfl⟩

theorem exists_attempt (registers : Nat) (h : Resolved (p.instructions.map Instruction.footprint))
    (s : Session) : ∃ round u, Yields (attempt p registers) s round u := by
  obtain ⟨l, u, hl⟩ := Liveness.exists_analyze_iff.mpr h
  exact ⟨_, _, yields_bind.mpr ⟨l, u, hl, yields_bind.mpr ⟨(), _, yields_lift.mpr rfl, rfl⟩⟩⟩

/-- The allocation that a round ends with. -/
theorem finish_run (p : Progress) (r : Round) (s : Session) : ∃ s', (finish p r).run s = ({
      instructions := p.instructions
      colors := r.coloring.colors
      spilled := p.spilled
      slots := p.slots
      rounds := p.rounds
      status := if r.coloring.spilled.isEmpty then .converged
        else .exceeded p.rounds r.coloring.spilled
      liveness := r.liveness
      interference := r.interference
      merges := r.coloring.merges }, s') ∧ s.DrawsTemps s' := by
  unfold finish
  cases r.coloring.spilled.isEmpty with
  | true => exact ⟨_, rfl, .refl _⟩
  | false => exact ⟨_, rfl, Nat.le_refl _, rfl, rfl⟩

/-! ## One round after the other -/

/-- **Rounds of spilling** from one state of the loop to another: the bound on the
rounds to come, the progress made so far, and the session. -/
inductive Rounds (registers : Nat) :
    Nat → Progress → Session → Nat → Progress → Session → Prop where
  | refl (bound : Nat) (p : Progress) (s : Session) : Rounds registers bound p s bound p s
  | spill {bound bound' : Nat} {p p' q : Progress} {s u s' t : Session} {round : Round}
      (attempted : Yields (attempt p registers) s round u) (more : round.candidates p ≠ [])
      (spilled : (p.spill (round.candidates p)).run u = (p', s'))
      (rest : Rounds registers bound p' s' bound' q t) :
      Rounds registers (bound + 1) p s bound' q t

/-- What every round keeps holds whenever a round begins. -/
theorem Rounds.keeps (Inv : Nat → Progress → Session → Prop)
    (step : ∀ {bound p p' s u s' round}, Inv (bound + 1) p s →
      Yields (attempt p registers) s round u → round.candidates p ≠ [] →
      (p.spill (round.candidates p)).run u = (p', s') → Inv bound p' s')
    {bound bound' : Nat} {p q : Progress} {s t : Session}
    (h : Rounds registers bound p s bound' q t) (hp : Inv bound p s) : Inv bound' q t := by
  induction h with
  | refl => exact hp
  | spill attempted more spilled _ ih => exact ih (step hp attempted more spilled)

theorem Rounds.sameJumps {bound' : Nat} {q : Progress} {t : Session}
    (h : Rounds registers bound p s bound' q t) :
    SameJumps p.instructions q.instructions ∧ s.DrawsTemps t :=
  h.keeps (fun _ q t => SameJumps p.instructions q.instructions ∧ s.DrawsTemps t)
    (fun {_ _ _ _ _ _ _} hp attempted _ spilled => by
      obtain ⟨-, -, -, -, hdraws, -⟩ := of_attempt attempted
      obtain ⟨hjumps, hdraws'⟩ := Progress.spill_keeps spilled
      exact ⟨hp.1.trans hjumps, (hp.2.trans hdraws).trans hdraws'⟩)
    ⟨.refl _, .refl _⟩

/-- **The loop ends** in one of its rounds, with nothing left to spill or the bound
reached, if the jumps of the code are resolved. -/
theorem exists_iterate (registers bound : Nat)
    (h : Resolved (p.instructions.map Instruction.footprint)) :
    ∃ bound' q t round u, Rounds registers bound p s bound' q t ∧
      Yields (attempt q registers) t round u ∧ (bound' = 0 ∨ round.candidates q = []) ∧
      Yields (iterate registers bound p) s (((finish q round).run u).1, q.frame)
        ((finish q round).run u).2 := by
  induction bound generalizing p s with
  | zero =>
    obtain ⟨round, u, hround⟩ := exists_attempt registers h s
    refine ⟨0, p, s, round, u, .refl _ _ _, hround, .inl rfl, ?_⟩
    exact yields_bind.mpr ⟨round, u, hround, yields_bind.mpr ⟨_, _, yields_lift.mpr rfl, rfl⟩⟩
  | succ bound ih =>
    obtain ⟨round, u, hround⟩ := exists_attempt registers h s
    by_cases hmore : round.candidates p = []
    · refine ⟨bound + 1, p, s, round, u, .refl _ _ _, hround, .inr hmore, ?_⟩
      refine yields_bind.mpr ⟨round, u, hround, ?_⟩
      dsimp only
      rw [if_pos (isEmpty_iff.mpr hmore)]
      exact yields_bind.mpr ⟨_, _, yields_lift.mpr rfl, rfl⟩
    · obtain ⟨p', s', hspill⟩ : ∃ p' s', (p.spill (round.candidates p)).run u = (p', s') :=
        ⟨_, _, rfl⟩
      obtain ⟨hjumps, -⟩ := Progress.spill_keeps hspill
      obtain ⟨bound', q, t, round', u', hrounds, hround', hend, hyields⟩ :=
        ih (p := p') (s := s') (hjumps.resolved h)
      refine ⟨bound', q, t, round', u', .spill hround hmore hspill hrounds, hround', hend, ?_⟩
      refine yields_bind.mpr ⟨round, u, hround, ?_⟩
      dsimp only
      rw [if_neg (by simpa using hmore)]
      exact yields_bind.mpr ⟨p', s', yields_lift.mpr hspill, hyields⟩

end Allocation

end TreeBackend
