import TreeBackend.Proofs.FreshLabels
import Mathlib.Algebra.Group.Nat.Defs
import Mathlib.Data.List.Nodup
import Mathlib.Data.List.Perm.Subperm

/-!
# What a session hands out

A session is asked for temps and for labels, in any order. The id of a temp is its place
among the temps, in thirty-two bits, and the session keeps the names of all temps in
order. Labels have two tables, one of names by id and one of ids by name. Fresh labels
have a counter of their own, and labels that are asked for by name may take any of the
numbers it has not reached yet.

That the two tables say the same is an invariant (`Session.Tabled`). What the counter and
the tables have to do with each other is said by what the session has issued
(`Session.Accounts`), and so is what may answer a request (`Session.Answers`). Both hold
of one step, and therefore of every history of requests (`Session.issueAll_consistent`).
Ids are unique as long as they do not wrap around. Seven temps are there from the start,
so of `2 ^ 32` temps that are asked for the last ones are taken for machine registers.
-/

namespace TreeBackend

open List

namespace Session

variable {s s' : Session} {name : String} {id : UInt32}

/-! ## The two tables of labels -/

/-- The two tables of labels **agree**: the names that have an id are those that have a
place, and the id is the place in thirty-two bits. -/
def Tabled (s : Session) : Prop :=
  ∀ name id, s.labelId? name = some id ↔ ∃ k, s.labelNames[k]? = some name ∧ .ofNat k = id

namespace Tabled

theorem mem_labels (h : s.Tabled) : ⟨name⟩ ∈ s.labels ↔ name ∈ s.labelNames := by
  rw [← not_iff_not, ← labelId?_eq_none_iff, mem_iff_getElem?, Option.eq_none_iff_forall_ne_some]
  simp [h name]

theorem notMem_of_none (h : s.Tabled) (hnone : s.labelId? name = none) : name ∉ s.labelNames :=
  fun hmem => labelId?_eq_none_iff.mp hnone (h.mem_labels.mpr hmem)

/-- Entering a name that has no place gives it the next id, and changes no other. -/
theorem labelId?_withLabel (h : s.Tabled) (hname : name ∉ s.labelNames) {other : String} :
    (s.withLabel name).labelId? other = some id ↔
      s.labelId? other = some id ∨ other = name ∧ .ofNat s.labelNames.length = id := by
  have hnone : s.labelId? name = none := labelId?_eq_none_iff.mpr (mt h.mem_labels.mp hname)
  have hids : (s.withLabel name).labelId? other
      = (s.labelId? other).or ([(name, .ofNat s.labelNames.length)].lookup other) := lookup_append
  rw [hids, Option.or_eq_some_iff]
  by_cases hother : other = name
  · simp [hother, hnone]
  · simp [hother, lookup_cons, beq_false_of_ne hother]

/-- Entering a name that has no place keeps the tables in step. -/
theorem withLabel (h : s.Tabled) (hname : name ∉ s.labelNames) : (s.withLabel name).Tabled := by
  intro other id
  rw [h.labelId?_withLabel hname, h]
  show _ ↔ ∃ k, (s.labelNames ++ [name])[k]? = some other ∧ .ofNat k = id
  constructor
  · rintro (⟨k, hk, rfl⟩ | ⟨rfl, rfl⟩)
    · exact ⟨k, (List.getElem?_append_left (List.getElem?_eq_some_iff.mp hk).1).trans hk, rfl⟩
    · exact ⟨_, getElem?_concat_length, rfl⟩
  · rintro ⟨k, hk, rfl⟩
    obtain hlt | hge := Nat.lt_or_ge k s.labelNames.length
    · exact .inl ⟨k, (List.getElem?_append_left hlt).symm.trans hk, rfl⟩
    · rw [List.getElem?_append_right hge, getElem?_singleton] at hk
      split at hk
      · exact .inr ⟨(Option.some.inj hk).symm, congrArg _ (by omega)⟩
      · cases hk

/-- **The tables are inverse**, as long as there are ids for all labels. -/
theorem labelId?_eq_some_iff (h : s.Tabled) (hroom : s.labelNames.length ≤ 2 ^ 32) :
    s.labelId? name = some id ↔ s.labelNames[id.toNat]? = some name := by
  rw [h]
  constructor
  · rintro ⟨k, hk, rfl⟩
    have hlt := (List.getElem?_eq_some_iff.mp hk).1
    rwa [UInt32.toNat_ofNat', Nat.mod_eq_of_lt (by omega)]
  · exact fun hid => ⟨_, hid, id.ofNat_toNat⟩

/-- A label keeps its id when others are entered. -/
theorem mono (h : s.Tabled) (h' : s'.Tabled) (hgrows : s.labelNames <+: s'.labelNames)
    (hid : s.labelId? name = some id) : s'.labelId? name = some id := by
  obtain ⟨k, hk, rfl⟩ := (h name id).mp hid
  obtain ⟨more, hmore⟩ := hgrows
  refine (h' name _).mpr ⟨k, ?_, rfl⟩
  rw [← hmore, List.getElem?_append_left (List.getElem?_eq_some_iff.mp hk).1, hk]

end Tabled

/-! ## Single answers -/

/-- What a session can be **asked** for. -/
inductive Ask where
  /-- A temp shown by a name. -/
  | temp (name : String)
  /-- A temp to hold a value. -/
  | holder
  /-- The label of a name. -/
  | label (name : String)
  /-- A label that was never mentioned. -/
  | freshLabel

/-- What a session **issues**: a temp, or the id of a label. -/
inductive Issued where
  | temp (t : Temp)
  | label (id : UInt32)
  deriving DecidableEq

/-- The temps among what was issued. -/
def temps (issued : List Issued) : List Temp := issued.filterMap fun
    | .temp t => some t
    | .label _ => none

/-- The session is asked for something. -/
def issue : Ask → SessionM Issued
  | .temp name => return .temp (← newTemp name)
  | .holder => return .temp (← newHolder)
  | .label name => return .label (← namedId name)
  | .freshLabel => return .label (← freshId)

/-- The session is asked for one thing after the other. -/
def issueAll (asks : List Ask) : SessionM (List Issued) := asks.mapM issue

/-- What **answers** a request, given what was issued before, in a session that has
answered it. A temp has the next place, and the name that was asked for. The id of a label is
found by its name. A fresh label was not issued before, and all labels with lower numbers
were. -/
def Answers (s : Session) (before : List Issued) : Ask → Issued → Prop
  | .temp name, .temp t => t = ⟨7 + (temps before).length, .plain name⟩
  | .holder, .temp t => t = ⟨7 + (temps before).length, .holder⟩
  | .label name, .label id => s.labelId? name = some id
  | .freshLabel, .label id => .label id ∉ before ∧ ∃ n, s.labelId? (numbered n).name = some id ∧
    ∀ m < n, ∃ id, .label id ∈ before ∧ s.labelId? (numbered m).name = some id
  | _, _ => False

/-- The session **accounts** for what was issued: it has the temps in order, behind those
that it had from the start, its tables have just the labels, and its counter of fresh
labels has passed only numbers that are taken. -/
structure Accounts (issued : List Issued) (s : Session) : Prop where
  places : (temps issued).map Temp.index = List.range' 7 (temps issued).length
  names : s.tempNames.reverse = Temp.reservedNames ++ (temps issued).map Temp.name
  tabled : s.Tabled
  labels : ∀ id, .label id ∈ issued ↔ ∃ name, s.labelId? name = some id
  numbers : ∀ n < s.nextFresh, (numbered n).name ∈ s.labelNames
  count : (temps issued).length + s.labelNames.length ≤ issued.length

/-- All numbers that the search has passed are taken. -/
theorem numbered_mem_of_lt_firstFree {labels : List Label} {fuel n m : Nat} (hn : n ≤ m)
    (hm : m < firstFree labels fuel n) : numbered m ∈ labels := by
  induction fuel generalizing n with
  | zero => exact absurd hm (Nat.not_lt.mpr hn)
  | succ fuel ih =>
    rw [firstFree] at hm
    split at hm
    · next htaken =>
      obtain rfl | hlt := Nat.eq_or_lt_of_le hn
      · exact htaken
      · exact ih hlt hm
    · exact absurd hm (Nat.not_lt.mpr hn)

@[simp] theorem temps_append_temp (issued : List Issued) (t : Temp) :
    temps (issued ++ [.temp t]) = temps issued ++ [t] := filterMap_append

@[simp] theorem temps_append_label (issued : List Issued) (id : UInt32) :
    temps (issued ++ [.label id]) = temps issued := by
  rw [temps, filterMap_append]
  exact append_nil _

namespace Accounts

variable {issued : List Issued}

/-- A new session has issued nothing. -/
theorem new (config : Config) : Accounts [] (new config) where
  places := rfl
  names := rfl
  tabled name id := by simp [Session.new, labelId?]
  labels id := by simp [Session.new, labelId?]
  numbers _ h := absurd h (Nat.not_lt_zero _)
  count := Nat.le_refl 0

/-- Temps are counted after the seven of the start. -/
theorem tempCount_eq (h : Accounts issued s) : s.tempCount = 7 + (temps issued).length := by
  have hlength := congrArg length h.names
  rwa [length_reverse, length_append, length_map] at hlength

/-- A temp is drawn. -/
theorem drawTemp (h : Accounts issued s) (kind : Temp.Kind) :
    Accounts (issued ++ [.temp ⟨s.tempCount, kind⟩]) (s.withTemp kind.name) where
  places := by
    rw [temps_append_temp, map_append, h.places, length_append, length_singleton, range'_concat,
      h.tempCount_eq, Nat.one_mul]
    rfl
  names := by
    rw [temps_append_temp, map_append, ← append_assoc, ← h.names]
    exact reverse_cons
  tabled := h.tabled
  labels id := (mem_append.trans (or_iff_left (by simp))).trans (h.labels id)
  numbers := h.numbers
  count := by
    have := h.count
    simp only [temps_append_temp, length_append, length_singleton]
    show _ + s.labelNames.length ≤ _
    omega

/-- A label is issued that was issued before. -/
theorem again (h : Accounts issued s) (hid : s.labelId? name = some id) :
    Accounts (issued ++ [.label id]) s where
  places := by rw [temps_append_label, h.places]
  names := by rw [temps_append_label, h.names]
  tabled := h.tabled
  labels id' := by
    rw [mem_append, h.labels, mem_singleton, or_iff_left_of_imp]
    intro heq
    exact ⟨name, Issued.label.inj heq ▸ hid⟩
  numbers := h.numbers
  count := by
    rw [temps_append_label]
    exact Nat.le_trans h.count (by simp)

/-- A label is issued for the first time. -/
theorem enter (h : Accounts issued s) (hname : name ∉ s.labelNames) {next : Nat}
    (hnext : ∀ n < next, (numbered n).name ∈ s.labelNames ++ [name]) :
    Accounts (issued ++ [.label (.ofNat s.labelNames.length)])
      ({ s with nextFresh := next }.withLabel name) where
  places := by rw [temps_append_label, h.places]
  names := by rw [temps_append_label]; exact h.names
  tabled := @Tabled.withLabel { s with nextFresh := next } name h.tabled hname
  labels id := by
    have hids := @Tabled.labelId?_withLabel { s with nextFresh := next } name id h.tabled hname
    simp only [mem_append, h.labels, mem_singleton, Issued.label.injEq, hids, exists_or,
      exists_eq_left, eq_comm (a := id)]
    rfl
  numbers := hnext
  count := by
    have := h.count
    rw [temps_append_label, length_append, length_singleton]
    show _ + (s.labelNames ++ [name]).length ≤ _
    rw [length_append, length_singleton]
    omega

theorem numbered_mem_of_lt (h : Accounts issued s) {n : Nat}
    (hn : n < firstFree s.labels s.labels.length s.nextFresh) :
    (numbered n).name ∈ s.labelNames := by
  obtain hlt | hle := Nat.lt_or_ge n s.nextFresh
  · exact h.numbers n hlt
  · exact h.tabled.mem_labels.mp (numbered_mem_of_lt_firstFree hle hn)

/-- The label that is entered next has an id that was not issued, if one is left. -/
theorem ofNat_length_notMem (h : Accounts issued s) (hroom : issued.length < 2 ^ 32) :
    .label (.ofNat s.labelNames.length) ∉ issued := by
  intro hmem
  obtain ⟨name, hid⟩ := (h.labels _).mp hmem
  have hcount := h.count
  rw [h.tabled.labelId?_eq_some_iff (by omega), UInt32.toNat_ofNat',
    Nat.mod_eq_of_lt (by omega)] at hid
  exact Nat.lt_irrefl _ (List.getElem?_eq_some_iff.mp hid).1

end Accounts

/-- A name that has an id is answered by it. -/
theorem run_namedId_of_some (hid : s.labelId? name = some id) : (namedId name).run s = (id, s) := by
  show namedId name s = _
  rw [namedId, hid]

/-- A new name gets the next id, and goes into both tables. -/
theorem run_namedId_of_none (hid : s.labelId? name = none) :
    (namedId name).run s = (.ofNat s.labelNames.length, s.withLabel name) := by
  show namedId name s = _
  rw [namedId, hid]

/-- **One step**: the session gives an answer, and accounts for it from then on. Labels keep
their places in the table. -/
theorem Accounts.step {issued : List Issued} (h : Accounts issued s)
    (hroom : issued.length < 2 ^ 32) (ask : Ask) :
    ∃ x s', (issue ask).run s = (x, s') ∧ Answers s' issued ask x ∧ Accounts (issued ++ [x]) s' ∧
      s.labelNames <+: s'.labelNames := by
  cases ask with
  | temp name =>
    exact ⟨_, _, rfl, congrArg (Temp.mk · _) h.tempCount_eq, h.drawTemp (.plain name), prefix_rfl⟩
  | holder =>
    exact ⟨_, _, rfl, congrArg (Temp.mk · _) h.tempCount_eq, h.drawTemp .holder, prefix_rfl⟩
  | label name =>
    cases hid : s.labelId? name with
    | some id =>
      refine ⟨.label id, s, ?_, hid, h.again hid, prefix_rfl⟩
      rw [issue, StateT.run_bind, run_namedId_of_some hid]
      rfl
    | none =>
      have hname := h.tabled.notMem_of_none hid
      refine ⟨.label _, s.withLabel name, ?_,
        (h.tabled.labelId?_withLabel hname).mpr (.inr ⟨rfl, rfl⟩), h.enter hname fun n hn =>
          mem_append_left _ (h.numbers n hn), prefix_append _ _⟩
      rw [issue, StateT.run_bind, run_namedId_of_none hid]
      rfl
  | freshLabel =>
    -- the name with number `n` is new, and those with lower numbers are taken
    obtain ⟨n, hn⟩ : ∃ n, n = firstFree s.labels s.labels.length s.nextFresh := ⟨_, rfl⟩
    have hname : (numbered n).name ∉ s.labelNames := by
      rw [← h.tabled.mem_labels, hn]
      exact numbered_firstFree_notMem s.labels s.nextFresh
    have hbelow : ∀ m < n, (numbered m).name ∈ s.labelNames := fun m hm =>
      h.numbered_mem_of_lt (hn ▸ hm)
    let t : Session := { s with nextFresh := n + 1 }
    have htabled : t.Tabled := h.tabled
    have hids {name : String} {id : UInt32} :=
      @Tabled.labelId?_withLabel t (numbered n).name id htabled hname name
    refine ⟨.label (.ofNat s.labelNames.length), t.withLabel (numbered n).name, ?_,
      ⟨h.ofNat_length_notMem hroom, n, hids.mpr (.inr ⟨rfl, rfl⟩), fun m hm => ?_⟩,
      h.enter hname fun m hm => ?_, prefix_append _ _⟩
    · have hnext : nextNumber.run s = (n, t) := by
        rw [show t = { s with nextFresh := n + 1 } from rfl, hn]
        rfl
      have hfresh : freshId.run s = ((namedId (numbered n).name).run t) := by
        rw [freshId, StateT.run_bind, hnext]
        rfl
      have hnone : t.labelId? (numbered n).name = none :=
        labelId?_eq_none_iff.mpr (mt h.tabled.mem_labels.mp hname)
      rw [issue, StateT.run_bind, hfresh, run_namedId_of_none hnone]
      rfl
    · obtain ⟨k, hk⟩ := mem_iff_getElem?.mp (hbelow m hm)
      have hid : s.labelId? (numbered m).name = _ := (h.tabled _ _).mpr ⟨k, hk, rfl⟩
      exact ⟨_, (h.labels _).mpr ⟨_, hid⟩, hids.mpr (.inl hid)⟩
    · obtain hlt | rfl := Nat.lt_succ_iff_lt_or_eq.mp hm
      · exact mem_append_left _ (hbelow m hlt)
      · exact mem_append_right _ mem_cons_self

/-! ## Whole histories -/

/-- An answer stays one when labels are entered. -/
theorem Answers.mono {before : List Issued} {ask : Ask} {x : Issued} (h : Answers s before ask x)
    (hids : ∀ name id, s.labelId? name = some id → s'.labelId? name = some id) :
    Answers s' before ask x := by
  cases ask with
  | temp | holder =>
    cases x with
    | temp | label => exact h
  | label name =>
    cases x with
    | temp => exact h
    | label => exact hids _ _ h
  | freshLabel =>
    cases x with
    | temp => exact h
    | label id =>
      obtain ⟨hnew, n, hid, hbelow⟩ := h
      exact ⟨hnew, n, hids _ _ hid, fun m hm => (hbelow m hm).imp fun _ h => h.imp_right (hids _ _)⟩

/-- Each request is **answered** in its turn, given what was issued before it, in a session
that has answered them all. -/
inductive Answered (s : Session) : List Issued → List Ask → List Issued → Prop
  | nil {before : List Issued} : Answered s before [] []
  | cons {before issued : List Issued} {ask : Ask} {asks : List Ask} {x : Issued}
      (first : Answers s before ask x) (rest : Answered s (before ++ [x]) asks issued) :
      Answered s before (ask :: asks) (x :: issued)

namespace Answered

variable {before issued : List Issued} {asks : List Ask}

theorem length_eq (h : Answered s before asks issued) : issued.length = asks.length := by
  induction h with
  | nil => rfl
  | cons _ _ ih => exact congrArg (· + 1) ih

/-- A label that is asked for by name is found by it. -/
theorem labelId? (h : Answered s before asks issued) {i : Nat}
    (hask : asks[i]? = some (.label name)) (hx : issued[i]? = some (.label id)) :
    s.labelId? name = some id := by
  induction h generalizing i with
  | nil => cases hask
  | cons first _ ih =>
    cases i with
    | zero =>
      obtain rfl := Option.some.inj hask
      obtain rfl := Option.some.inj hx
      exact first
    | succ i => exact ih hask hx

end Answered

/-- **A history** of requests: each of them is answered, the session accounts for all that
was issued, and labels keep their places in the table. -/
theorem Accounts.run {before : List Issued} (h : Accounts before s) (asks : List Ask)
    (hroom : before.length + asks.length < 2 ^ 32) :
    ∃ issued s', (issueAll asks).run s = (issued, s') ∧ Answered s' before asks issued ∧
      Accounts (before ++ issued) s' ∧ s.labelNames <+: s'.labelNames := by
  -- the others are put to a session that accounts for the answer to the first
  induction asks generalizing before s with
  | nil => exact ⟨[], s, rfl, .nil, (append_nil before).symm ▸ h, prefix_rfl⟩
  | cons ask asks ih =>
    rw [length_cons] at hroom
    obtain ⟨x, t, hstep, hanswers, haccounts, hgrows⟩ := h.step (by omega) ask
    obtain ⟨issued, u, hrun, hanswered, haccounts', hgrows'⟩ := ih haccounts (by
      rw [length_append, length_singleton]
      omega)
    rw [← append_cons] at haccounts'
    refine ⟨x :: issued, u, ?_, .cons (hanswers.mono fun name id =>
      haccounts.tabled.mono haccounts'.tabled hgrows') hanswered, haccounts', hgrows.trans hgrows'⟩
    rw [issueAll, mapM_cons, StateT.run_bind, hstep]
    show StateT.run (issueAll asks >>= fun xs => pure (x :: xs)) t = _
    rw [StateT.run_bind, hrun]
    rfl

/-! ## The ids of temps -/

namespace Accounts

variable {issued : List Issued} {t : Temp}

/-- The temps that were issued have their places in order. -/
theorem exists_index (h : Accounts issued s) (ht : t ∈ temps issued) :
    ∃ k < (temps issued).length, t.index = 7 + k ∧ s.tempNames.reverse[7 + k]? = some t.name := by
  obtain ⟨k, hk⟩ := mem_iff_getElem?.mp ht
  have hlt := (List.getElem?_eq_some_iff.mp hk).1
  have hplace := congrArg (·[k]?) h.places
  simp only [getElem?_map, hk, getElem?_range' hlt, Option.map_some, Option.some.injEq] at hplace
  refine ⟨k, hlt, by omega, ?_⟩
  rw [h.names, List.getElem?_append_right (Nat.le_add_right 7 k), getElem?_map]
  show ((temps issued)[7 + k - 7]?).map Temp.name = _
  rw [Nat.add_sub_cancel_left, hk, Option.map_some]

end Accounts

end Session

end TreeBackend
