import TreeBackend.Session.Basic
import TreeBackend.Word

/-!
# Objects and arrays

An object is a word that points to its class's table of methods, then one word
per field, inherited fields first. The table reserves its first word, so method
number `i` stands in word `1 + i`. An array is a word with its length, then its
elements. Offsets wrap around like all words.
-/

namespace TreeBackend

/-- The runtime's routine that reserves memory, called with a byte count. -/
def mallocName : String := "malloc"

/-- The runtime's routine that prints a number. -/
def printName : String := "println"

/-- The layout of a class's objects and of its method table. -/
structure ClassLayout where
  /-- The label of the method table. -/
  vtable : Label
  /-- The fields in order, inherited ones first. -/
  fields : List String
  /-- The methods in order, inherited ones first. -/
  methods : List String
  wordSize : Int64

namespace ClassLayout

/-- The layout of a class; its method table gets a label. -/
def new (className : String) (fields methods : List String) : SessionM ClassLayout := do
  let vtable ← Session.namedLabel (className ++ "@vtable")
  return { vtable, fields, methods, wordSize := (← get).config.wordSize }

/-- The offset of word `1 + index`, where field or method number `index` is. -/
def offset (c : ClassLayout) (index : Nat) : Int64 := c.wordSize * (1 + .ofNat index)

/-- The size of an object in bytes. -/
def size (c : ClassLayout) : Int64 := c.offset c.fields.length

/-- The number of a field: of two fields of one name, the later one. -/
def fieldIndex? (c : ClassLayout) (name : String) : Option Nat :=
  (c.fields.reverse.idxOf? name).map fun k => c.fields.length - 1 - k

/-- The field `name` of the object at `base`. -/
def field? (c : ClassLayout) (name : String) (base : Exp) : Option Exp :=
  (c.fieldIndex? name).map fun index => .mem (.plus base (.const (c.offset index)))

/-- The code of method `name` for the object at `base`. -/
def method? (c : ClassLayout) (name : String) (base : Exp) : Option Exp :=
  (c.methods.idxOf? name).map fun index => .mem (.plus (.mem base) (.const (c.offset index)))

/-- Reserve an object, set its method table, and clear its fields. -/
def allocate (c : ClassLayout) : SessionM Exp := do
  let object ← Session.newTemp "obj"
  let malloc ← Session.namedLabel mallocName
  let clear := (List.range c.fields.length).map fun index =>
    Stm.move (.mem (.plus (.temp object) (.const (c.offset index)))) (.const 0)
  let init := Stm.seqAll
    (.move (.temp object) (.call (.name malloc) [.const c.size])
      :: .move (.mem (.temp object)) (.name c.vtable)
      :: clear)
  return .eseq init (.temp object)

end ClassLayout

/-- The layout of arrays. -/
structure ArrayLayout where
  wordSize : Int64

namespace ArrayLayout

/-- The layout of arrays under the session's configuration. -/
def new : SessionM ArrayLayout := return ⟨(← get).config.wordSize⟩

/-- The offset of the element at `index`: one word further than the index says.
A constant index makes a constant offset, if the offset fits a word. -/
def elementOffset (a : ArrayLayout) (index : Exp) : Exp :=
  let computed := .plus (.const a.wordSize) (.binop .mul index (.const a.wordSize))
  match index with
  | .const i =>
    if Word.fits (i.toInt + 1) && Word.fits ((i.toInt + 1) * a.wordSize.toInt) then
      .const ((i + 1) * a.wordSize)
    else computed
  | _ => computed

/-- The element at `index` of the array at `base`. -/
def element (a : ArrayLayout) (base index : Exp) : Exp := .mem (.plus base (a.elementOffset index))

/-- The length of the array at `base`. -/
def length (_ : ArrayLayout) (base : Exp) : Exp := .mem base

/-- Reserve an array of `length` elements and record its length. -/
def allocate (a : ArrayLayout) (length : Exp) : SessionM Exp := do
  let count ← Session.newTemp "len"
  let array ← Session.newTemp "arr"
  let malloc ← Session.namedLabel mallocName
  let bytes := .binop .mul (.plus (.temp count) (.const 1)) (.const a.wordSize)
  let init := Stm.seqAll
    [.move (.temp count) length,
      .move (.temp array) (.call (.name malloc) [bytes]),
      .move (.mem (.temp array)) (.temp count)]
  return .eseq init (.temp array)

end ArrayLayout

end TreeBackend
