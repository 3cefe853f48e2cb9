import TreeBackend.Code.Instruction
import TreeBackend.Storage.Frame

/-!
# Spill code

A spilled temp lives in a word of the frame. Every instruction that mentions it
gets a temp of its own in its place, which is loaded from the word before the
instruction reads it and stored to the word after the instruction writes it.
-/

namespace TreeBackend

/-- Code after spilling. -/
structure SpillCode where
  instructions : List Instruction := []
  /-- The offset of each spilled temp's word from the frame pointer. -/
  slots : TempMap Int64 := ∅
  /-- The temps that were drawn to take the place of spilled ones, in order. -/
  temps : List Temp := []

namespace SpillCode

/-- Reserve a word of the frame for each temp, in order. -/
def reserve : List Temp → TempMap Int64 → Frame → TempMap Int64 × Frame
  | [], slots, frame => (slots, frame)
  | t :: rest, slots, frame =>
    let (offset, frame) := frame.allocateSlot
    reserve rest (slots.insert t offset) frame

/-- The word at an offset from the frame pointer. -/
def slotAddress (offset : Int64) : Address := ⟨some .framePointer, offset⟩

/-- An instruction under way: what has to run before and after it. -/
structure Wrapped where
  before : List Instruction := []
  instruction : Instruction
  after : List Instruction := []

/-- Put `fresh` in the place of `t`, whose word is at `offset`. -/
def Wrapped.replace (w : Wrapped) (t fresh : Temp) (offset : Int64) : Wrapped :=
  let w :=
    if t ∈ w.instruction.uses then
      { w with
        before := w.before ++ [.load fresh (slotAddress offset)]
        instruction := w.instruction.renameUses t fresh }
    else w
  if t ∈ w.instruction.defs then
    { w with
      instruction := w.instruction.renameDefs t fresh
      after := w.after ++ [.store (slotAddress offset) fresh] }
  else w

/-- Replace the temps of a list that have a word, each by a new temp. Returns
the new temps as well. -/
def replaceAll (slots : TempMap Int64) : List Temp → Wrapped → SessionM (Wrapped × List Temp)
  | [], w => return (w, [])
  | t :: rest, w =>
    match slots[t]? with
    | none => replaceAll slots rest w
    | some offset => do
      let fresh ← Session.newTemp "spill"
      let (w, temps) ← replaceAll slots rest (w.replace t fresh offset)
      return (w, fresh :: temps)

/-- The temps an instruction mentions, each once: first those it reads. -/
def mentioned (i : Instruction) : List Temp :=
  (i.uses ++ i.defs).foldl (fun seen t => if t ∈ seen then seen else seen ++ [t]) []

/-- Route every access to a temp that has a word through a temp of its own. -/
def routeAll (slots : TempMap Int64) : List Instruction → SessionM (List Instruction × List Temp)
  | [] => return ([], [])
  | i :: rest => do
    let (w, temps) ← replaceAll slots (mentioned i) { instruction := i }
    let (code, more) ← routeAll slots rest
    return (w.before ++ w.instruction :: w.after ++ code, temps ++ more)

/-- **Spill** temps: give each a word of the frame, and route every access to
it through that word. -/
def ofCode (code : List Instruction) (spilled : List Temp) (frame : Frame) :
    SessionM (SpillCode × Frame) := do
  let (slots, frame) := reserve spilled ∅ frame
  let (instructions, temps) ← routeAll slots code
  return ({ instructions, slots, temps }, frame)

end SpillCode

end TreeBackend
