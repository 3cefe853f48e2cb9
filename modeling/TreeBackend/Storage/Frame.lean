import TreeBackend.Session.Basic

/-!
# Frames

A frame is the piece of memory that one activation of a method works in. Its
first formals travel in registers; the other formals lie just below the frame
pointer, in order; locals and the slots of spilled temps lie above it, in the
order in which they were asked for. All of them are words. Offsets are words as
well, and counting them wraps around.
-/

namespace TreeBackend

/-- Where a variable lives. -/
inductive Access where
  /-- In a temp. -/
  | register (temp : Temp)
  /-- In memory, at an offset from the frame pointer. -/
  | frame (offset : Int64)
  deriving DecidableEq, Repr

namespace Access

/-- The tree that reads the variable, or that a move can assign. -/
def toExp : Access → Exp
  | register t => .temp t
  | frame offset => .mem (.plus (.temp .framePointer) (.const offset))

/-- The temp of a variable that lives in one. -/
def temp? : Access → Option Temp
  | register t => some t
  | frame _ => none

end Access

/-- The activation record of a method. -/
structure Frame where
  name : String
  wordSize : Int64
  /-- How many formals travel in registers. -/
  maxRegisterFormals : Nat
  /-- The temp that the method's result is moved into. -/
  result : Temp
  /-- The formals in order. -/
  formals : List (String × Access) := []
  /-- The locals in order, with their offsets from the frame pointer. -/
  locals : List (String × Int64) := []
  /-- The bytes that formals take in memory. -/
  formalTop : Int64 := 0
  /-- The bytes in use above the frame pointer. -/
  localTop : Int64 := 0

namespace Frame

/-- The name of the formal that holds the caller's continuation. -/
def exitAddressName : String := "@exit"

/-- A frame without variables, sized by the session's configuration. Draws the
temp for the result. -/
def new (name : String) : SessionM Frame := do
  let config := (← get).config
  let result ← Session.newTemp "ret"
  return { name, wordSize := config.wordSize, maxRegisterFormals := config.maxRegisterFormals,
           result }

/-- Formals with new offsets for those in memory: the first of them is `slot` bytes
above the start of the frame, and the frame pointer `top` bytes. -/
def rebase (wordSize top : Int64) : Int64 → List (String × Access) → List (String × Access)
  | _, [] => []
  | slot, (name, .register t) :: rest => (name, .register t) :: rebase wordSize top slot rest
  | slot, (name, .frame _) :: rest =>
    (name, .frame (slot - top)) :: rebase wordSize top (slot + wordSize) rest

/-- Add a formal that lives in a place. The formals in memory end at the frame
pointer, so all of them may move. -/
def pushFormal (f : Frame) (name : String) (access : Access) : Frame :=
  { f with formals := rebase f.wordSize f.formalTop 0 (f.formals ++ [(name, access)]) }

/-- Add a formal: in a temp of its own while there is room, else in memory, where
its offset is settled once its word is counted. -/
def addFormal (f : Frame) (name : String) : SessionM Frame := do
  if f.formals.length < f.maxRegisterFormals then
    return f.pushFormal name (.register (← Session.newTemp name))
  else
    return { f with formalTop := f.formalTop + f.wordSize }.pushFormal name (.frame f.formalTop)

/-- Add the formal that holds the caller's continuation. -/
def addExitAddress (f : Frame) : SessionM Frame := f.addFormal exitAddressName

/-- Reserve the next word above the frame pointer; returns its offset. -/
def allocateSlot (f : Frame) : Int64 × Frame :=
  (f.localTop, { f with localTop := f.localTop + f.wordSize })

/-- Add a local, in the next word above the frame pointer. -/
def addLocal (f : Frame) (name : String) : Frame :=
  { f.allocateSlot.2 with locals := f.locals ++ [(name, f.allocateSlot.1)] }

/-- Where all variables live, locals first. -/
def placements (f : Frame) : List (String × Access) :=
  f.locals.map (fun l => (l.1, .frame l.2)) ++ f.formals

/-- Where a variable lives. A local hides a formal of its name, and the first
of two declarations hides the second. -/
def find? (f : Frame) (name : String) : Option Access := f.placements.lookup name

/-- The temps that formals travel in, in order. -/
def registerFormals (f : Frame) : List Temp := f.formals.filterMap fun formal => formal.2.temp?

/-- Where the method's result goes. -/
def resultAccess (f : Frame) : Access := .register f.result

end Frame

end TreeBackend
