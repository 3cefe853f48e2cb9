import TreeBackend.Alloc.Spill
import TreeBackend.Code.Flow
import TreeBackend.Proofs.FrameWords
import TreeBackend.Proofs.Ownership
import TreeBackend.Proofs.Pieces
import TreeBackend.Proofs.SuccessfulRuns
import Mathlib.Data.List.Nodup

/-!
# What spill code looks like

Spilling draws new temps as it goes along and replaces one spilled temp of an
instruction after the other. What comes out is simpler than how it is made: the
instruction sends each of its spilled temps on a **detour** over a temp of its
own, all at once. The detours of an instruction say which loads come before it,
which stores come after it, and how its temps are renamed.

`SpillCode.routed` is the instruction with its detours, and `routeAll_eq` says
that spill code is made of such pieces, one for each instruction of the code.
-/

namespace TreeBackend

open List

namespace SpillCode

/-! ## Detours -/

/-- The way of a spilled temp in one instruction: over `fresh`, to and from the
word at `offset`. -/
structure Detour where
  temp : Temp
  fresh : Temp
  offset : Int64
  deriving DecidableEq, Repr

namespace Detour

/-- Fetch the temp's value before the instruction. -/
def load (d : Detour) : Instruction := .load d.fresh (slotAddress d.offset)

/-- Keep the temp's value after the instruction. -/
def store (d : Detour) : Instruction := .store (slotAddress d.offset) d.fresh

end Detour

/-- The temp an instruction mentions in the place of `t`. -/
def reroute (ds : List Detour) (t : Temp) : Temp := match ds.find? (·.temp = t) with
  | some d => d.fresh
  | none => t

/-- The detours of the temps of a list: those an instruction reads, or writes. -/
def among (ds : List Detour) (ts : List Temp) : List Detour := ds.filter (·.temp ∈ ts)

variable {ds : List Detour} {ts : List Temp} {d : Detour} {t : Temp} {i : Instruction}
  {s u : Session} {code : List Instruction} {frame : Frame}

@[simp] theorem mem_among : d ∈ among ds ts ↔ d ∈ ds ∧ d.temp ∈ ts := by simp [among]

theorem among_concat_of_mem (h : d.temp ∈ ts) : among (ds ++ [d]) ts = among ds ts ++ [d] := by
  simp [among, h]

theorem among_concat_of_notMem (h : d.temp ∉ ts) : among (ds ++ [d]) ts = among ds ts := by
  simp [among, h]

/-- An instruction **routed** over detours. -/
def routed (i : Instruction) (ds : List Detour) : Wrapped where
  before := (among ds i.uses).map Detour.load
  instruction := { i with uses := i.uses.map (reroute ds), defs := i.defs.map (reroute ds) }
  after := (among ds i.defs).map Detour.store

@[simp] theorem reroute_nil (t : Temp) : reroute [] t = t := rfl

theorem reroute_of_notMem (h : ∀ d ∈ ds, d.temp ≠ t) : reroute ds t = t := by
  unfold reroute
  rw [List.find?_eq_none.mpr (fun d hd => by simpa using h d hd)]

theorem reroute_cases (ds : List Detour) (t : Temp) : (reroute ds t = t ∧ ∀ d ∈ ds, d.temp ≠ t)
      ∨ ∃ d ∈ ds, d.temp = t ∧ reroute ds t = d.fresh := by
  unfold reroute
  cases hd : ds.find? (·.temp = t) with
  | none => exact .inl ⟨rfl, by simpa using hd⟩
  | some d =>
    have ht := List.find?_some hd
    exact .inr ⟨d, mem_of_find?_eq_some hd, by simpa using ht, rfl⟩

/-- Of different temps, each has a detour of its own. -/
theorem reroute_eq_fresh (hnodup : (ds.map (·.temp)).Nodup) (hd : d ∈ ds) :
    reroute ds d.temp = d.fresh := by
  obtain ⟨_, hno⟩ | ⟨e, he, htemp, heq⟩ := reroute_cases ds d.temp
  · exact absurd rfl (hno d hd)
  · rw [heq, inj_on_of_nodup_map hnodup he hd htemp]

/-- A detour more changes nothing for a temp that has one … -/
theorem reroute_concat_of_mem {e : Detour} (he : e ∈ ds) (d : Detour) :
    reroute (ds ++ [d]) e.temp = reroute ds e.temp := by
  unfold reroute
  rw [List.find?_append]
  cases hf : ds.find? (·.temp = e.temp) with
  | none => exact absurd rfl ((by simpa using hf : ∀ d ∈ ds, d.temp ≠ e.temp) e he)
  | some _ => rfl

/-- … and is taken by a temp that has none. -/
theorem reroute_concat_of_notMem (h : ∀ e ∈ ds, e.temp ≠ t) (d : Detour) :
    reroute (ds ++ [d]) t = if t = d.temp then d.fresh else t := by
  unfold reroute
  rw [List.find?_append, List.find?_eq_none.mpr (fun e he => by simpa using h e he)]
  by_cases ht : t = d.temp
  · simp [ht]
  · have htd : d.temp ≠ t := Ne.symm ht
    simp [ht, htd]

/-! ## One replacement more -/

/-- Whether `t` may get a detour next: it has none, and is none. -/
def Unseen (ds : List Detour) (t : Temp) : Prop := ∀ d ∈ ds, d.temp ≠ t ∧ d.fresh ≠ t

/-- A temp that has no detour yet is mentioned after rerouting where it was
mentioned before. -/
theorem mem_map_reroute (h : Unseen ds t) (ts : List Temp) : t ∈ ts.map (reroute ds) ↔ t ∈ ts := by
  rw [mem_map]
  constructor
  · rintro ⟨x, hx, heq⟩
    obtain ⟨hsame, _⟩ | ⟨d, hd, _, hfresh⟩ := reroute_cases ds x
    · exact (hsame.symm.trans heq) ▸ hx
    · exact absurd (hfresh.symm.trans heq) (h d hd).2
  · exact fun ht => ⟨t, ht, reroute_of_notMem fun d hd => (h d hd).1⟩

/-- Replacing one temp more is a detour more. -/
theorem map_reroute_concat (h : Unseen ds d.temp) (ts : List Temp) : ts.map (reroute (ds ++ [d]))
      = (ts.map (reroute ds)).map fun x => if x = d.temp then d.fresh else x := by
  rw [map_map]
  refine map_congr_left fun t _ => ?_
  show reroute (ds ++ [d]) t = if reroute ds t = d.temp then d.fresh else reroute ds t
  obtain ⟨hsame, hno⟩ | ⟨e, he, rfl, hfresh⟩ := reroute_cases ds t
  · rw [reroute_concat_of_notMem hno, hsame]
  · rw [reroute_concat_of_mem he, hfresh, if_neg (h e he).2]

theorem map_reroute_concat_of_notMem (h : Unseen ds d.temp) (ht : d.temp ∉ ts) :
    ts.map (reroute (ds ++ [d])) = ts.map (reroute ds) := by
  rw [map_reroute_concat h]
  refine (map_congr_left fun x hx => ?_).trans (map_id _)
  rw [if_neg]
  · rfl
  · rintro rfl
    exact ht ((mem_map_reroute h ts).mp hx)

/-- **One step of spilling**: the next temp gets its detour. -/
theorem replace_routed (h : Unseen ds d.temp) :
    (routed i ds).replace d.temp d.fresh d.offset = routed i (ds ++ [d]) := by
  unfold Wrapped.replace
  -- whether the temp is read, and whether it is written, are asked of the code as it was
  have huses : d.temp ∈ (routed i ds).instruction.uses ↔ d.temp ∈ i.uses := mem_map_reroute h _
  have hdefs : d.temp ∈ (routed i ds).instruction.defs ↔ d.temp ∈ i.defs := mem_map_reroute h _
  by_cases hu : d.temp ∈ i.uses <;> by_cases hd : d.temp ∈ i.defs
  · rw [if_pos (huses.mpr hu)]
    rw [if_pos (show d.temp ∈ ((routed i ds).instruction.renameUses _ _).defs from hdefs.mpr hd),
      routed, routed, among_concat_of_mem hu, among_concat_of_mem hd, map_reroute_concat h,
      map_reroute_concat h, map_append, map_append]
    rfl
  · rw [if_pos (huses.mpr hu)]
    rw [if_neg (show d.temp ∉ ((routed i ds).instruction.renameUses _ _).defs from
      fun hin => hd (hdefs.mp hin)), routed, routed, among_concat_of_mem hu,
      among_concat_of_notMem hd, map_reroute_concat_of_notMem h hd, map_reroute_concat h,
      map_append]
    rfl
  · rw [if_neg fun hin => hu (huses.mp hin)]
    rw [if_pos (hdefs.mpr hd), routed, routed, among_concat_of_notMem hu, among_concat_of_mem hd,
      map_reroute_concat_of_notMem h hu, map_reroute_concat h, map_append]
    rfl
  · rw [if_neg fun hin => hu (huses.mp hin)]
    rw [if_neg fun hin => hd (hdefs.mp hin), routed, routed, among_concat_of_notMem hu,
      among_concat_of_notMem hd, map_reroute_concat_of_notMem h hu,
      map_reroute_concat_of_notMem h hd]

/-! ## The detours of an instruction -/

/-- The `n`-th temp that may be drawn for spilled ones. -/
def spillTemp (n : Nat) : Temp := ⟨n, .plain "spill"⟩

/-- The session after `n` temps were drawn for spilled ones. -/
def drawing (u : Session) (n : Nat) : Session :=
  { u with tempNames := List.replicate n "spill" ++ u.tempNames }

theorem tempCount_drawing (u : Session) (n : Nat) : (drawing u n).tempCount = u.tempCount + n := by
  simp [drawing, Session.tempCount, Nat.add_comm]

theorem drawing_drawing (u : Session) (m n : Nat) :
    drawing (drawing u m) n = drawing u (m + n) := by
  simp [drawing, ← append_assoc, Nat.add_comm]

theorem not_owns_spillTemp {n : Nat} (h : s.tempCount ≤ n) : ¬ s.Owns (spillTemp n) :=
  Session.not_owns_plain "spill" h

/-- Replacing temps draws a new temp for each that has a word, in order. -/
theorem replaceAll_routed (slots : TempMap Int64) (i : Instruction) (ds : List Detour)
    (hts : ts.Nodup) (howned : ∀ t ∈ ts, s.Owns t) (hle : s.tempCount ≤ u.tempCount)
    (hunseen : ∀ t ∈ ts, Unseen ds t) :
    ∃ more : List Detour, more.map (·.temp) = ts.filter (fun t => slots[t]?.isSome) ∧
      more.map (·.fresh) = (List.range' u.tempCount more.length).map spillTemp ∧
      (∀ d ∈ more, slots[d.temp]? = some d.offset) ∧
      (replaceAll slots ts (routed i ds)).run u = ((routed i (ds ++ more), more.map (·.fresh)),
          drawing u more.length) := by
  induction ts generalizing ds u with
  | nil => exact ⟨[], rfl, rfl, by simp, by rw [append_nil]; rfl⟩
  | cons t ts ih =>
    obtain ⟨ht, hts⟩ := nodup_cons.mp hts
    have howned' : ∀ x ∈ ts, s.Owns x := fun x hx => howned x (mem_cons_of_mem _ hx)
    have hunseen' : ∀ x ∈ ts, Unseen ds x := fun x hx => hunseen x (mem_cons_of_mem _ hx)
    cases hslot : slots[t]? with
    | none =>
      obtain ⟨more, htemps, hfresh, hslots, hrun⟩ := ih ds hts howned' hle hunseen'
      refine ⟨more, ?_, hfresh, hslots, ?_⟩
      · rw [htemps, filter_cons_of_neg (by simp [hslot])]
      · rw [replaceAll, hslot]
        exact hrun
    | some offset =>
      let d : Detour := ⟨t, spillTemp u.tempCount, offset⟩
      -- the temp just replaced does not come up again, and the one drawn for it never did
      have hnew : ∀ x ∈ ts, Unseen (ds ++ [d]) x := by
        intro x hx e he
        obtain he | he := mem_append.mp he
        · exact hunseen' x hx e he
        · obtain rfl := mem_singleton.mp he
          refine ⟨fun h => ht ((show t = x from h) ▸ hx), fun h => ?_⟩
          exact not_owns_spillTemp hle ((show spillTemp u.tempCount = x from h) ▸ howned' x hx)
      obtain ⟨more, htemps, hfresh, hslots, hrun⟩ := ih (u := drawing u 1) (ds ++ [d]) hts howned'
          (Nat.le_succ_of_le hle) hnew
      refine ⟨d :: more, ?_, ?_, ?_, ?_⟩
      · rw [map_cons, htemps, filter_cons_of_pos (by simp [hslot])]
      · rw [map_cons, hfresh, length_cons, List.range'_succ, map_cons]
        rfl
      · intro e he
        obtain rfl | he := mem_cons.mp he
        · exact hslot
        · exact hslots e he
      · have hstep := replace_routed (i := i) (d := d) (hunseen t mem_cons_self)
        rw [← hstep, append_assoc] at hrun
        rw [replaceAll, hslot]
        refine run_bind_eq_iff.mpr ⟨d.fresh, drawing u 1, rfl, ?_⟩
        refine run_bind_eq_iff.mpr ⟨_, _, hrun, run_pure_eq_iff.mpr ⟨rfl, ?_⟩⟩
        rw [length_cons, drawing_drawing, Nat.add_comm]

theorem mem_mentioned : t ∈ mentioned i ↔ t ∈ i.uses ++ i.defs := by
  have hfold : ∀ (ts seen : List Temp),
      t ∈ ts.foldl (fun seen t => if t ∈ seen then seen else seen ++ [t]) seen
        ↔ t ∈ seen ∨ t ∈ ts := by
    intro ts
    induction ts with
    | nil => simp
    | cons x ts ih =>
      intro seen
      rw [foldl_cons, ih, mem_cons]
      split
      · next hx =>
        refine ⟨Or.imp_right .inr, ?_⟩
        rintro (h | rfl | h)
        · exact .inl h
        · exact .inl hx
        · exact .inr h
      · rw [mem_append, mem_singleton, or_assoc]
  exact (hfold _ []).trans (or_iff_right not_mem_nil)

theorem nodup_mentioned (i : Instruction) : (mentioned i).Nodup := by
  have hfold : ∀ (ts seen : List Temp), seen.Nodup →
      (ts.foldl (fun seen t => if t ∈ seen then seen else seen ++ [t]) seen).Nodup := by
    intro ts
    induction ts with
    | nil => exact fun seen h => h
    | cons x ts ih =>
      intro seen h
      refine ih _ ?_
      dsimp only
      split
      · exact h
      · next hx => exact nodup_append.mpr ⟨h, nodup_singleton x, by
          rintro a ha b hb rfl
          exact hx (mem_singleton.mp hb ▸ ha)⟩
  exact hfold _ [] nodup_nil

/-- **The detours of an instruction**, in a session that owns its temps: one for
every temp it mentions that has a word, over different temps that the session
does not own. -/
structure Detours (slots : TempMap Int64) (s : Session) (i : Instruction) (ds : List Detour) :
    Prop where
  temps_nodup : (ds.map (·.temp)).Nodup
  fresh_nodup : (ds.map (·.fresh)).Nodup
  not_owned : ∀ d ∈ ds, ¬ s.Owns d.fresh
  temp_mem : ∀ d ∈ ds, d.temp ∈ i.uses ++ i.defs
  slot : ∀ d ∈ ds, slots[d.temp]? = some d.offset
  exists_of_mem : ∀ {t : Temp} {offset : Int64}, t ∈ i.uses ++ i.defs → slots[t]? = some offset →
    ∃ d ∈ ds, d.temp = t

/-- Detours over temps that were drawn one after the other, and one of these temps. -/
theorem exists_spillTemp_eq {first : Nat}
    (hfresh : ds.map (·.fresh) = (List.range' first ds.length).map spillTemp) (hd : d ∈ ds) :
    ∃ n, (first ≤ n ∧ n < first + ds.length) ∧ d.fresh = spillTemp n := by
  have hmem : d.fresh ∈ ds.map (·.fresh) := mem_map_of_mem hd
  rw [hfresh] at hmem
  obtain ⟨n, hn, heq⟩ := mem_map.mp hmem
  exact ⟨n, mem_range'_1.mp hn, heq.symm⟩

/-- Temps that were drawn one after the other are different. -/
theorem nodup_spillTemps (first count : Nat) : ((List.range' first count).map spillTemp).Nodup :=
  List.Nodup.map (fun _ _ h => congrArg Temp.index h) nodup_range'

/-- Routing an instruction sends it over its detours. -/
theorem replaceAll_mentioned (slots : TempMap Int64) (howned : i.OwnedBy s)
    (hle : s.tempCount ≤ u.tempCount) :
    ∃ ds, Detours slots s i ds ∧
      ds.map (·.fresh) = (List.range' u.tempCount ds.length).map spillTemp ∧
      (replaceAll slots (mentioned i) { instruction := i }).run u
        = ((routed i ds, ds.map (·.fresh)), drawing u ds.length) := by
  have hstart : ({ instruction := i } : Wrapped) = routed i [] := by
    unfold routed
    rw [map_congr_left (fun t _ => reroute_nil t), map_id',
      map_congr_left (fun t _ => reroute_nil t), map_id']
    rfl
  obtain ⟨ds, htemps, hfresh, hslots, hrun⟩ := replaceAll_routed slots i [] (nodup_mentioned i)
    (fun t ht => howned t (mem_mentioned.mp ht)) hle (fun t _ d hd => absurd hd not_mem_nil)
  refine ⟨ds, ⟨?_, ?_, ?_, ?_, hslots, ?_⟩, hfresh, hstart ▸ hrun⟩
  · rw [htemps]
    exact (nodup_mentioned i).filter _
  · rw [hfresh]
    exact nodup_spillTemps _ _
  · intro d hd
    obtain ⟨n, hn, heq⟩ := exists_spillTemp_eq hfresh hd
    rw [heq]
    exact not_owns_spillTemp (Nat.le_trans hle hn.1)
  · intro d hd
    have hmem : d.temp ∈ ds.map (·.temp) := mem_map_of_mem hd
    rw [htemps, mem_filter] at hmem
    exact mem_mentioned.mp hmem.1
  · intro t offset ht hslot
    have hmem : t ∈ ds.map (·.temp) := by
      rw [htemps, mem_filter]
      exact ⟨mem_mentioned.mpr ht, by rw [hslot]; rfl⟩
    exact mem_map.mp hmem

/-! ## Spill code in pieces -/

/-- All of a wrapped instruction, in the order in which it runs. -/
def Wrapped.toList (w : Wrapped) : List Instruction := w.before ++ w.instruction :: w.after

/-- The **pieces** of spill code, one for each instruction. -/
def pieces (code : List Instruction) (routes : List (List Detour)) : List (List Instruction) :=
  List.zipWith (fun i ds => (routed i ds).toList) code routes

/-- Where a method is entered nothing is read, so nothing is loaded. -/
theorem flatten_pieces_enter (entry : List Temp) (rest : List Instruction) (ds : List Detour)
    (routes : List (List Detour)) : (pieces (.enter entry :: rest) (ds :: routes)).flatten =
      .enter (entry.map (reroute ds)) ::
        ((routed (.enter entry) ds).after ++ (pieces rest routes).flatten) := by
  have hloads : among ds (Instruction.enter entry).uses = [] :=
    filter_eq_nil_iff.mpr fun d _ => by simp [Instruction.enter]
  have hbefore : (routed (.enter entry) ds).before = [] := by rw [routed, hloads, map_nil]
  show (routed (.enter entry) ds).toList ++ _ = _
  rw [Wrapped.toList, hbefore]
  rfl

/-- **Routing code** sends every instruction over its detours, and draws the temps
they lead over. -/
theorem routeAll_run (slots : TempMap Int64) (howned : ∀ i ∈ code, i.OwnedBy s)
    (hle : s.tempCount ≤ u.tempCount) :
    ∃ routes, List.Forall₂ (Detours slots s) code routes ∧ routes.flatten.map (·.fresh)
        = (List.range' u.tempCount routes.flatten.length).map spillTemp ∧
      (routeAll slots code).run u = (((pieces code routes).flatten, routes.flatten.map (·.fresh)),
          drawing u routes.flatten.length) := by
  induction code generalizing u with
  | nil => exact ⟨[], .nil, rfl, rfl⟩
  | cons i code ih =>
    obtain ⟨ds, hds, hfresh, hrun⟩ := replaceAll_mentioned slots (howned i mem_cons_self) hle
    obtain ⟨routes, hroutes, hfresh', hrun'⟩ :=
      ih (u := drawing u ds.length) (fun j hj => howned j (mem_cons_of_mem _ hj))
        (tempCount_drawing u _ ▸ Nat.le_add_right_of_le hle)
    refine ⟨ds :: routes, .cons hds hroutes, ?_, ?_⟩
    · rw [flatten_cons, map_append, hfresh, hfresh', tempCount_drawing, ← map_append,
        List.range'_append_1, length_append]
    · refine run_bind_eq_iff.mpr ⟨_, _, hrun, run_bind_eq_iff.mpr ⟨_, _, hrun', ?_⟩⟩
      refine run_pure_eq_iff.mpr ⟨?_, by rw [drawing_drawing, flatten_cons, length_append]⟩
      rw [flatten_cons, map_append]
      rfl

/-- A piece places the label its instruction places, and no other. -/
theorem label?_of_mem_toList {j : Instruction} (hj : j ∈ (routed i ds).toList) :
    j.label? = none ∨ j.label? = i.label? := by
  obtain hj | hj := mem_append.mp hj
  · obtain ⟨d, _, rfl⟩ := mem_map.mp hj
    exact .inl rfl
  · obtain rfl | hj := mem_cons.mp hj
    · exact .inr rfl
    · obtain ⟨d, _, rfl⟩ := mem_map.mp hj
      exact .inl rfl

/-- A label stands where its piece starts. -/
theorem labelIndex?_pieces {routes : List (List Detour)} (hlen : code.length = routes.length)
    (hlabels : ∀ i ∈ code, i.label? ≠ none → i.uses = []) (l : Label) :
    Flow.labelIndex? (pieces code routes).flatten l
      = (Flow.labelIndex? code l).map (start (pieces code routes)) := by
  refine findIdx?_flatten ?_
  induction code generalizing routes with
  | nil => exact .nil
  | cons i code ih =>
    obtain ⟨ds, routes, rfl⟩ : ∃ ds rest, routes = ds :: rest := by
      cases routes with
      | nil => cases hlen
      | cons ds rest => exact ⟨ds, rest, rfl⟩
    refine .cons ⟨fun hl => ?_, fun hl j hj => ?_⟩
      (ih (Nat.succ.inj hlen) fun j hj => hlabels j (mem_cons_of_mem _ hj))
    · -- nothing is read at a label, so nothing is loaded before it
      have huses : i.uses = [] := hlabels i mem_cons_self (by simp [of_decide_eq_true hl])
      refine ⟨(routed i ds).instruction, (routed i ds).after, ?_, hl⟩
      simp [Wrapped.toList, routed, among, huses]
    · obtain h | h := label?_of_mem_toList hj
      · simp [h]
      · simpa [h] using hl

/-! ## The words of spilled temps -/

/-- Reserving words changes nothing of a frame but its top. -/
theorem reserve_frame (ts : List Temp) (slots : TempMap Int64) (frame : Frame) :
    (reserve ts slots frame).2 = { frame with localTop := frame.slotAt ts.length } := by
  induction ts generalizing slots frame with
  | nil => rw [length_nil, frame.slotAt_zero]; rfl
  | cons t ts ih => rw [reserve, ih, frame.slotAt_allocateSlot]; rfl

/-- A temp that has a word had it before, or is one of those that were given one, in order. -/
theorem of_reserve {slots : TempMap Int64} {offset : Int64}
    (h : (reserve ts slots frame).1[t]? = some offset) :
    slots[t]? = some offset ∨ ∃ k, ts[k]? = some t ∧ offset = frame.slotAt k := by
  induction ts generalizing slots frame with
  | nil => exact .inl h
  | cons x ts ih =>
    obtain hold | ⟨k, hk, rfl⟩ := @ih frame.allocateSlot.2 (slots.insert x frame.allocateSlot.1) h
    · rw [Std.ExtTreeMap.getElem?_insert] at hold
      split at hold
      · next heq =>
        obtain rfl := Std.LawfulEqOrd.compare_eq_iff_eq.mp heq
        exact .inr ⟨0, rfl, (Option.some.inj hold).symm.trans frame.slotAt_zero.symm⟩
      · exact .inl hold
    · exact .inr ⟨k + 1, hk, frame.slotAt_allocateSlot k⟩

theorem isSome_reserve (ts : List Temp) (slots : TempMap Int64) (frame : Frame) (t : Temp) :
    (reserve ts slots frame).1[t]?.isSome ↔ t ∈ ts ∨ slots[t]?.isSome := by
  induction ts generalizing slots frame with
  | nil => simp [reserve]
  | cons x ts ih =>
    show (SpillCode.reserve ts _ _).1[t]?.isSome ↔ _
    rw [ih, Std.ExtTreeMap.getElem?_insert, mem_cons]
    by_cases hx : x = t
    · simp [hx]
    · have hne : compare x t ≠ .eq := fun h => hx (Std.LawfulEqOrd.compare_eq_iff_eq.mp h)
      rw [if_neg hne]
      simp [Ne.symm hx]

end SpillCode

end TreeBackend
