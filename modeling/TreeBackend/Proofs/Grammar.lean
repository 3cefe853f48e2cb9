import TreeBackend.Proofs.SuccessfulRuns
import TreeBackend.Text.Reader

/-!
# The grammar of trees

Trees are read by functions that take fuel and thread a reader. What they read
is a matter of the tokens alone, and `Reader.Reads` says it without fuel, one
rule for each form of a tree. The number of tokens is enough fuel, so that the
functions read what the grammar says and nothing else (`yields_readStm_iff`,
`yields_readMethods_iff`). Whatever holds of the trees of a text is then shown
by induction over the rules.
-/

namespace TreeBackend

variable {name text : String} {session session' : Session} {ms : List MethodText}

/-! ## Names -/

/-- What is found by a name has it. -/
theorem eq_of_find?_beq {α : Type} {nameOf : α → String} {xs : List α} {x : α}
    (h : xs.find? (fun x => nameOf x == name) = some x) : name = nameOf x :=
  (beq_iff_eq.mp (List.find?_some h :)).symm

/-- A keyword names one kind of statement. -/
theorem Stm.Kind.ofKeyword?_eq_some {kind : Stm.Kind} :
    ofKeyword? name = some kind ↔ name = kind.keyword :=
  ⟨eq_of_find?_beq, fun h => h ▸ ofKeyword?_keyword kind⟩

/-- A keyword names one kind of expression. -/
theorem Exp.Kind.ofKeyword?_eq_some {kind : Exp.Kind} :
    ofKeyword? name = some kind ↔ name = kind.keyword :=
  ⟨eq_of_find?_beq, fun h => h ▸ ofKeyword?_keyword kind⟩

/-- A relation is known by its name. -/
theorem RelOp.ofName?_eq_some {rel : RelOp} : ofName? name = some rel ↔ name = rel.name :=
  ⟨eq_of_find?_beq, fun h => h ▸ ofName?_name rel⟩

/-- So is an operator. -/
theorem BinOp.ofName?_eq_some {op : BinOp} : ofName? name = some op ↔ name = op.name :=
  ⟨eq_of_find?_beq, fun h => h ▸ ofName?_name op⟩

namespace Text

/-- What is read in one go: a tree, or a row of trees. -/
inductive Item where
  | stm (s : Stm)
  | stms (stms : List Stm)
  | exp (e : Exp)
  | exps (es : List Exp)

namespace Item

/-- A row of trees may be empty, and a tree may not. -/
def slack : Item → Nat
  | stm _ | exp _ => 0
  | stms _ | exps _ => 1

/-- The function for the item reads it. -/
def YieldedBy (fuel : Nat) (r r' : Reader) : Item → Prop
  | stm s => Yields (Reader.stm fuel) r s r'
  | stms l => Yields (Reader.stms fuel) r l r'
  | exp e => Yields (Reader.exp fuel) r e r'
  | exps es => Yields (Reader.exps fuel) r es r'

end Item

namespace Reader

/-! ## Tokens -/

/-- The next token is of a sort and is **taken**. -/
def Takes (r : Reader) (sort : Token.Sort) (r' : Reader) : Prop :=
  ∃ position rest, r.rest = ⟨sort, position⟩ :: rest ∧ r' = { r with rest }

/-- A parenthesis opens a form **headed** by a keyword. -/
def Heads (r : Reader) (keyword : String) (r' : Reader) : Prop :=
  ∃ u, r.Takes .opening u ∧ u.Takes (.atom keyword) r'

/-- The name of a label is taken; the label is known from then on. -/
def TakesLabel (r : Reader) (l : Label) (r' : Reader) : Prop := ∃ u, r.Takes (.atom l.name) u ∧
    r' = { u with session := ((Session.namedLabel l.name).run u.session).2 }

variable {r r' u : Reader} {sort : Token.Sort}

/-- Taking a token leaves one token less. -/
@[grind →] theorem Takes.length (h : r.Takes sort r') : r.rest.length = r'.rest.length + 1 := by
  obtain ⟨p, rest, hrest, rfl⟩ := h
  rw [hrest, List.length_cons]

/-- What is taken is what comes next. -/
theorem Takes.head? (h : r.Takes sort r') : r.rest.head?.map Token.sort = some sort := by
  obtain ⟨p, rest, hrest, rfl⟩ := h
  rw [hrest]
  rfl

/-- A head is two tokens: an opening and a keyword. -/
@[grind →] theorem Heads.length {keyword : String} (h : r.Heads keyword r') :
    r.rest.length = r'.rest.length + 2 := by
  obtain ⟨u, hopen, hatom⟩ := h
  rw [hopen.length, hatom.length]

@[grind →] theorem TakesLabel.length {l : Label} (h : r.TakesLabel l r') :
    r.rest.length = r'.rest.length + 1 := by
  obtain ⟨u, hatom, rfl⟩ := h
  exact hatom.length

/-! ## The parts of the reader -/

@[simp] theorem yields_get {a : Reader} : Yields (get : ReadM Reader) r a r' ↔ a = r ∧ r' = r := by
  constructor
  · intro h
    cases h
    exact ⟨rfl, rfl⟩
  · rintro ⟨rfl, rfl⟩
    rfl

@[simp] theorem yields_modify {change : Reader → Reader} {a : Unit} :
    Yields (modify change : ReadM Unit) r a r' ↔ r' = change r := by
  constructor
  · intro h
    cases h
    rfl
  · rintro rfl
    rfl

@[simp] theorem not_yields_fail {α : Type} {fault : SyntaxFault} {a : α} :
    ¬ Yields (fail fault : ReadM α) r a r' := by
  simp [fail, failAt]

@[simp] theorem yields_peek? {next : Option Token.Sort} :
    Yields peek? r next r' ↔ next = r.rest.head?.map Token.sort ∧ r' = r := by
  simp only [peek?, yields_bind, yields_get, yields_pure]
  grind

/-- Only the next token can be taken. -/
theorem takes_of_rest {position : Position} {rest : List Token} {sort' : Token.Sort}
    (h : r.rest = ⟨sort', position⟩ :: rest) :
    r.Takes sort r' ↔ sort = sort' ∧ r' = { r with rest } := by
  unfold Takes
  rw [h]
  constructor
  · rintro ⟨p, rest, heq, rfl⟩
    cases heq
    exact ⟨rfl, rfl⟩
  · rintro ⟨rfl, rfl⟩
    exact ⟨position, rest, rfl, rfl⟩

/-- **Reading a parenthesis** is taking it. -/
theorem yields_opening {a : Unit} : Yields opening r a r' ↔ r.Takes .opening r' := by
  simp only [opening, yields_bind, yields_get, exists_and_left, exists_eq_left, and_assoc]
  split
  · next p rest hrest => rw [yields_modify, takes_of_rest hrest, and_iff_right rfl]
  · next hno =>
    refine iff_of_false not_yields_fail ?_
    rintro ⟨p, rest, hrest, -⟩
    exact hno p rest hrest

theorem yields_closing {a : Unit} : Yields closing r a r' ↔ r.Takes .closing r' := by
  simp only [closing, yields_bind, yields_get, exists_and_left, exists_eq_left, and_assoc]
  split
  · next p rest hrest => rw [yields_modify, takes_of_rest hrest, and_iff_right rfl]
  · next hno =>
    refine iff_of_false not_yields_fail ?_
    rintro ⟨p, rest, hrest, -⟩
    exact hno p rest hrest

/-- An atom that is read was taken. -/
theorem takes_of_atom {entry : String × Position} (h : Yields atom r entry r') :
    r.Takes (.atom entry.1) r' := by
  simp only [atom, yields_bind, yields_get, exists_and_left, exists_eq_left, and_assoc] at h
  split at h
  · next text p rest hrest =>
    obtain ⟨_, _, rfl, rfl, rfl⟩ := h
    exact (takes_of_rest hrest).mpr ⟨rfl, rfl⟩
  · exact absurd h not_yields_fail

/-- An atom that can be taken is read, with its position. -/
theorem Takes.yields_atom (h : r.Takes (.atom text) r') :
    ∃ position, Yields atom r (text, position) r' := by
  obtain ⟨p, rest, hrest, rfl⟩ := h
  refine ⟨p, ?_⟩
  simp only [atom, yields_bind, yields_get, exists_and_left, exists_eq_left, and_assoc]
  rw [hrest]
  exact yields_bind.mpr ⟨(), _, yields_modify.mpr rfl, rfl⟩

/-- An atom is read, and what follows does not depend on where it stood. -/
theorem yields_atom_bind {α : Type} {f : String × Position → ReadM α} {a : α}
    {P : String → Reader → Prop} (hf : ∀ text p u, Yields (f (text, p)) u a r' ↔ P text u) :
    Yields (atom >>= f) r a r' ↔ ∃ text u, r.Takes (.atom text) u ∧ P text u := by
  rw [yields_bind]
  constructor
  · rintro ⟨⟨text, p⟩, u, hatom, h⟩
    exact ⟨text, u, takes_of_atom hatom, (hf text p u).mp h⟩
  · rintro ⟨text, u, hatom, h⟩
    obtain ⟨p, hatom⟩ := hatom.yields_atom
    exact ⟨(text, p), u, hatom, (hf text p u).mpr h⟩

/-- An atom is read and looked up. -/
theorem yields_looked_up {α : Type} {find : String → Option α} {f : String × Position → ReadM α}
    (hsome : ∀ {text p a}, find text = some a → f (text, p) = pure a)
    (hnone : ∀ {text p u a v}, find text = none → ¬ Yields (f (text, p)) u a v) {a : α} :
    Yields (atom >>= f) r a r' ↔ ∃ text, r.Takes (.atom text) r' ∧ find text = some a := by
  refine (yields_atom_bind (P := fun text u => find text = some a ∧ u = r')
    fun text p u => ?_).trans (by grind)
  cases h : find text with
  | none => simpa using hnone h
  | some b => simp [hsome h]

/-- An atom is read as what has it for a name. -/
theorem yields_named {α : Type} {find : String → Option α} {nameOf : α → String}
    (hfind : ∀ {text a}, find text = some a ↔ text = nameOf a) {f : String × Position → ReadM α}
    (hsome : ∀ {text p a}, find text = some a → f (text, p) = pure a)
    (hnone : ∀ {text p u a v}, find text = none → ¬ Yields (f (text, p)) u a v) {a : α} :
    Yields (atom >>= f) r a r' ↔ r.Takes (.atom (nameOf a)) r' :=
  (yields_looked_up hsome hnone).trans (by simp [hfind])

/-- A number is an atom that spells a word. -/
theorem yields_integer {n : Int64} :
    Yields integer r n r' ↔ ∃ text, r.Takes (.atom text) r' ∧ Word.ofNumeral? text = some n :=
  yields_looked_up (fun h => by simp [h]) fun h => by simp [h, failAt]

/-- Drawing from the session takes no token. -/
theorem yields_inSession {α : Type} {act : SessionM α} {a : α} : Yields (inSession act) r a r' ↔
      a = (act.run r.session).1 ∧ r' = { r with session := (act.run r.session).2 } := by
  constructor
  · intro h
    obtain ⟨ha, rfl⟩ := Prod.mk.inj h
    exact ⟨(Except.ok.inj ha).symm, rfl⟩
  · rintro ⟨rfl, rfl⟩
    rfl

/-- A label is known by its name. -/
theorem namedLabel_fst (name : String) (s : Session) :
    ((Session.namedLabel name).run s).1 = ⟨name⟩ := rfl

/-- **Reading a label** is taking its name and making it known. -/
theorem yields_label {l : Label} : Yields label r l r' ↔ r.TakesLabel l r' := by
  refine (yields_atom_bind (P := fun text u => l = ⟨text⟩ ∧
    r' = { u with session := ((Session.namedLabel text).run u.session).2 })
      fun text p u => ?_).trans ?_
  · rw [yields_inSession, namedLabel_fst]
  · constructor
    · rintro ⟨text, u, htakes, rfl, rfl⟩
      exact ⟨u, htakes, rfl⟩
    · rintro ⟨u, htakes, rfl⟩
      exact ⟨l.name, u, htakes, rfl, rfl⟩

theorem yields_relation {rel : RelOp} : Yields relation r rel r' ↔ r.Takes (.atom rel.name) r' :=
  yields_named RelOp.ofName?_eq_some (fun h => by simp [h]) fun h => by simp [h]

theorem yields_operator {op : BinOp} : Yields operator r op r' ↔ r.Takes (.atom op.name) r' :=
  yields_named BinOp.ofName?_eq_some (fun h => by simp [h]) fun h => by simp [h]

theorem yields_stmKind {kind : Stm.Kind} :
    Yields stmKind r kind r' ↔ r.Takes (.atom kind.keyword) r' :=
  yields_named Stm.Kind.ofKeyword?_eq_some (fun h => by simp [h]) fun h => by simp [h, failAt]

theorem yields_expKind {kind : Exp.Kind} :
    Yields expKind r kind r' ↔ r.Takes (.atom kind.keyword) r' :=
  yields_named Exp.Kind.ofKeyword?_eq_some (fun h => by simp [h]) fun h => by simp [h, failAt]

/-- The temp of a name: the frame pointer, one from the table, or a new one. -/
theorem yields_temp {t : Temp} : Yields (temp name) r t r' ↔
      name = "fp" ∧ t = .framePointer ∧ r' = r ∨
      name ≠ "fp" ∧ r.temps.lookup name = some t ∧ r' = r ∨
      name ≠ "fp" ∧ r.temps.lookup name = none ∧ t = ⟨r.session.tempCount, .plain name⟩ ∧
        r' = { r with temps := r.temps ++ [(name, t)], session := r.session.withTemp name } := by
  unfold temp
  split
  · next hfp =>
    rw [yields_pure]
    constructor
    · rintro ⟨rfl, rfl⟩
      exact .inl ⟨hfp, rfl, rfl⟩
    · rintro (⟨-, rfl, rfl⟩ | ⟨hno, -⟩ | ⟨hno, -⟩)
      · exact ⟨rfl, rfl⟩
      · exact absurd hfp hno
      · exact absurd hfp hno
  · next hfp =>
    simp only [yields_bind, yields_get, exists_and_left, exists_eq_left, and_assoc]
    split
    · next t' ht' => simp [hfp, ht', eq_comm]
    · next hnone =>
      simp only [yields_bind, yields_inSession, yields_modify, yields_pure]
      constructor
      · rintro ⟨_, _, ⟨rfl, rfl⟩, _, _, rfl, rfl, rfl⟩
        exact .inr (.inr ⟨hfp, hnone, rfl, rfl⟩)
      · rintro (⟨hfp', -⟩ | ⟨-, hsome, -⟩ | ⟨-, -, rfl, rfl⟩)
        · exact absurd hfp' hfp
        · cases hnone.symm.trans hsome
        · exact ⟨_, _, ⟨rfl, rfl⟩, (), _, rfl, rfl, rfl⟩

/-- Looking up a name takes no token. -/
@[grind →] theorem rest_of_temp {t : Temp} (h : Yields (temp name) r t r') : r'.rest = r.rest := by
  obtain ⟨-, -, rfl⟩ | ⟨-, -, rfl⟩ | ⟨-, -, -, rfl⟩ := yields_temp.mp h
  · rfl
  · rfl
  · rfl

/-! ## Rules -/

/-- **The grammar**: which trees stand at the beginning of the tokens, and which
reader is left when they have been read. -/
inductive Reads : Reader → Item → Reader → Prop
  | seq {r₀ r₁ r₂ r₃ : Reader} {stms : List Stm} (head : r₀.Heads "seq" r₁)
      (body : Reads r₁ (.stms stms) r₂) (close : r₂.Takes .closing r₃) :
      Reads r₀ (.stm (Stm.seqAll stms)) r₃
  | move {r₀ r₁ r₂ r₃ r₄ : Reader} {dst src : Exp} (head : r₀.Heads "move" r₁)
      (left : Reads r₁ (.exp dst) r₂) (right : Reads r₂ (.exp src) r₃)
      (close : r₃.Takes .closing r₄) : Reads r₀ (.stm (.move dst src)) r₄
  | expStm {r₀ r₁ r₂ r₃ : Reader} {e : Exp} (head : r₀.Heads "exp" r₁)
      (value : Reads r₁ (.exp e) r₂) (close : r₂.Takes .closing r₃) :
      Reads r₀ (.stm (.exp e)) r₃
  | jump {r₀ r₁ r₂ r₃ : Reader} {l : Label} (head : r₀.Heads "jump" r₁)
      (target : r₁.TakesLabel l r₂) (close : r₂.Takes .closing r₃) :
      Reads r₀ (.stm (.jump l)) r₃
  | cjump {r₀ r₁ r₂ r₃ r₄ r₅ r₆ : Reader} {rel : RelOp} {left right : Exp} {l : Label}
      (head : r₀.Heads "cjump" r₁) (relation : r₁.Takes (.atom rel.name) r₂)
      (first : Reads r₂ (.exp left) r₃) (second : Reads r₃ (.exp right) r₄)
      (target : r₄.TakesLabel l r₅) (close : r₅.Takes .closing r₆) :
      Reads r₀ (.stm (.cjump rel left right l)) r₆
  | label {r₀ r₁ r₂ r₃ : Reader} {l : Label} (head : r₀.Heads "label" r₁)
      (place : r₁.TakesLabel l r₂) (close : r₂.Takes .closing r₃) :
      Reads r₀ (.stm (.label l)) r₃
  | noStms {r : Reader} (last : r.rest.head?.map Token.sort ≠ some .opening) : Reads r (.stms []) r
  | moreStms {r₀ r₁ r₂ : Reader} {s : Stm} {stms : List Stm} (first : Reads r₀ (.stm s) r₁)
      (rest : Reads r₁ (.stms stms) r₂) : Reads r₀ (.stms (s :: stms)) r₂
  | framePointer {r₀ r₁ : Reader} (name : r₀.Takes (.atom "fp") r₁) :
      Reads r₀ (.exp (.temp .framePointer)) r₁
  | numeral {r₀ r₁ : Reader} {text : String} {n : Int64} (atom : r₀.Takes (.atom text) r₁)
      (value : Word.ofNumeral? text = some n) : Reads r₀ (.exp (.const n)) r₁
  | const {r₀ r₁ r₂ r₃ : Reader} {text : String} {n : Int64} (head : r₀.Heads "const" r₁)
      (atom : r₁.Takes (.atom text) r₂) (value : Word.ofNumeral? text = some n)
      (close : r₂.Takes .closing r₃) : Reads r₀ (.exp (.const n)) r₃
  | name {r₀ r₁ r₂ r₃ : Reader} {l : Label} (head : r₀.Heads "name" r₁)
      (place : r₁.TakesLabel l r₂) (close : r₂.Takes .closing r₃) : Reads r₀ (.exp (.name l)) r₃
  | temp {r₀ r₁ r₂ r₃ r₄ : Reader} {name : String} {t : Temp} (head : r₀.Heads "temp" r₁)
      (atom : r₁.Takes (.atom name) r₂) (meaning : Yields (Reader.temp name) r₂ t r₃)
      (close : r₃.Takes .closing r₄) : Reads r₀ (.exp (.temp t)) r₄
  | binop {r₀ r₁ r₂ r₃ r₄ r₅ : Reader} {op : BinOp} {left right : Exp}
      (head : r₀.Heads "binop" r₁) (operator : r₁.Takes (.atom op.name) r₂)
      (first : Reads r₂ (.exp left) r₃) (second : Reads r₃ (.exp right) r₄)
      (close : r₄.Takes .closing r₅) : Reads r₀ (.exp (.binop op left right)) r₅
  | not {r₀ r₁ r₂ r₃ : Reader} {e : Exp} (head : r₀.Heads "not" r₁)
      (value : Reads r₁ (.exp e) r₂) (close : r₂.Takes .closing r₃) : Reads r₀ (.exp (.not e)) r₃
  | mem {r₀ r₁ r₂ r₃ : Reader} {e : Exp} (head : r₀.Heads "mem" r₁)
      (address : Reads r₁ (.exp e) r₂) (close : r₂.Takes .closing r₃) :
      Reads r₀ (.exp (.mem e)) r₃
  | call {r₀ r₁ r₂ r₃ r₄ : Reader} {f : Exp} {args : List Exp} (head : r₀.Heads "call" r₁)
      (function : Reads r₁ (.exp f) r₂) (arguments : Reads r₂ (.exps args) r₃)
      (close : r₃.Takes .closing r₄) : Reads r₀ (.exp (.call f args)) r₄
  | eseq {r₀ r₁ r₂ r₃ r₄ : Reader} {s : Stm} {e : Exp} (head : r₀.Heads "eseq" r₁)
      (effect : Reads r₁ (.stm s) r₂) (value : Reads r₂ (.exp e) r₃)
      (close : r₃.Takes .closing r₄) : Reads r₀ (.exp (.eseq s e)) r₄
  | noExps {r : Reader} (last : r.rest.head?.map Token.sort = none ∨
      r.rest.head?.map Token.sort = some .closing) : Reads r (.exps []) r
  | moreExps {r₀ r₁ r₂ : Reader} {e : Exp} {es : List Exp} (first : Reads r₀ (.exp e) r₁)
      (rest : Reads r₁ (.exps es) r₂) : Reads r₀ (.exps (e :: es)) r₂

/-- Reading a tree takes tokens. -/
@[grind →] theorem Reads.length_lt {item : Item} (h : r.Reads item r') :
    r'.rest.length < r.rest.length + item.slack := by
  induction h with
  | noStms | noExps => exact Nat.lt_succ_self _
  | _ => grind [Item.slack]

/-! ## One step of the functions -/

/-- What stands between the keyword of a statement and the parenthesis that closes
it. -/
def stmForm (fuel : Nat) : Stm.Kind → ReadM Stm
  | .seq => return Stm.seqAll (← stms fuel)
  | .move => return .move (← exp fuel) (← exp fuel)
  | .exp => return .exp (← exp fuel)
  | .jump => return .jump (← label)
  | .cjump => return .cjump (← relation) (← exp fuel) (← exp fuel) (← label)
  | .label => return .label (← label)

/-- What stands between the keyword of an expression and the parenthesis that closes
it. -/
def expForm (fuel : Nat) : Exp.Kind → ReadM Exp
  | .const => return .const (← integer)
  | .name => return .name (← label)
  | .temp => return .temp (← temp (← atom).1)
  | .binop => return .binop (← operator) (← exp fuel) (← exp fuel)
  | .not => return .not (← exp fuel)
  | .mem => return .mem (← exp fuel)
  | .call => return .call (← exp fuel) (← exps fuel)
  | .eseq => return .eseq (← stm fuel) (← exp fuel)

variable {fuel : Nat} {s : Stm} {stms : List Stm} {e : Exp} {es : List Exp}

/-- A form in parentheses, with a keyword for each kind. -/
theorem yields_headed {κ α : Type} {kind : ReadM κ} {keyword : κ → String} (form : κ → ReadM α)
    {x : κ → ReadM α}
    (hkind : ∀ {k r r'}, Yields kind r k r' ↔ r.Takes (.atom (keyword k)) r')
    (hx : ∀ k, x k = (do
      let a ← form k
      closing
      return a)) {a : α} :
    Yields (do
      opening
      x (← kind)) r a r' ↔
      ∃ k r₁ r₂, r.Heads (keyword k) r₁ ∧ Yields (form k) r₁ a r₂ ∧ r₂.Takes .closing r' := by
  obtain rfl := funext hx
  simp only [yields_bind, yields_opening, hkind, yields_closing, yields_pure]
  constructor
  · rintro ⟨_, u, hopen, k, r₁, hkind, _, r₂, hbody, _, _, hclose, rfl, rfl⟩
    exact ⟨k, r₁, r₂, ⟨u, hopen, hkind⟩, hbody, hclose⟩
  · rintro ⟨k, r₁, r₂, ⟨u, hopen, hkind⟩, hbody, hclose⟩
    exact ⟨(), u, hopen, k, r₁, hkind, a, r₂, hbody, (), r', hclose, rfl, rfl⟩

/-- A statement is a head, what its kind asks for, and a parenthesis. -/
theorem yields_stm_succ : Yields (stm (fuel + 1)) r s r' ↔ ∃ kind r₁ r₂, r.Heads kind.keyword r₁ ∧
      Yields (stmForm fuel kind) r₁ s r₂ ∧ r₂.Takes .closing r' :=
  yields_headed (stmForm fuel) yields_stmKind fun kind => by cases kind <;> simp [stmForm]

/-- Statements are read as long as a parenthesis opens. -/
theorem yields_stms_succ : Yields (Reader.stms (fuel + 1)) r stms r' ↔
      r.rest.head?.map Token.sort ≠ some .opening ∧ stms = [] ∧ r' = r ∨
      r.rest.head?.map Token.sort = some .opening ∧ ∃ s rest u, stms = s :: rest ∧
        Yields (stm fuel) r s u ∧ Yields (Reader.stms fuel) u rest r' := by
  have hpeek : Yields peek? r _ r := yields_peek?.mpr ⟨rfl, rfl⟩
  rw [Reader.stms, hpeek.bind_iff]
  split
  · next hopen =>
    simp only [yields_bind, yields_pure, hopen]
    grind
  · next hopen =>
    rw [yields_pure]
    grind

/-- An expression is the frame pointer, a number, or a form. -/
theorem yields_exp_succ : Yields (exp (fuel + 1)) r e r' ↔
      r.Takes (.atom "fp") r' ∧ e = .temp .framePointer ∨
      (∃ text n, r.Takes (.atom text) r' ∧ Word.ofNumeral? text = some n ∧ e = .const n) ∨
      ∃ kind r₁ r₂, r.Heads kind.keyword r₁ ∧ Yields (expForm fuel kind) r₁ e r₂ ∧
        r₂.Takes .closing r' := by
  have hnumeral : Word.ofNumeral? "fp" = none := by decide +kernel
  have hpeek : Yields peek? r _ r := yields_peek?.mpr ⟨rfl, rfl⟩
  rw [exp, hpeek.bind_iff]
  split
  · next hnext =>
    simp only [yields_bind, yields_pure]
    constructor
    · rintro ⟨⟨text, p⟩, u, hatom, rfl, rfl⟩
      have htakes := takes_of_atom hatom
      cases htakes.head?.symm.trans hnext
      exact .inl ⟨htakes, rfl⟩
    · rintro (⟨htakes, rfl⟩ | ⟨text, n, htakes, hn, rfl⟩ | ⟨kind, r₁, r₂, ⟨u, hopen, -⟩, -⟩)
      · obtain ⟨p, hatom⟩ := htakes.yields_atom
        exact ⟨_, _, hatom, rfl, rfl⟩
      · cases htakes.head?.symm.trans hnext
        cases hnumeral.symm.trans hn
      · cases hopen.head?.symm.trans hnext
  · next text hfp hnext =>
    simp only [yields_bind, yields_integer, yields_pure]
    constructor
    · rintro ⟨n, u, ⟨text, htakes, hn⟩, rfl, rfl⟩
      exact .inr (.inl ⟨text, n, htakes, hn, rfl⟩)
    · rintro (⟨htakes, rfl⟩ | ⟨text, n, htakes, hn, rfl⟩ | ⟨kind, r₁, r₂, ⟨u, hopen, -⟩, -⟩)
      · cases htakes.head?.symm.trans hnext
        exact absurd rfl hfp
      · exact ⟨n, r', ⟨text, htakes, hn⟩, rfl, rfl⟩
      · cases hopen.head?.symm.trans hnext
  · next hfp hnext =>
    refine (yields_headed (expForm fuel) yields_expKind fun kind => by
      cases kind <;> simp [expForm]).trans ?_
    constructor
    · exact fun h => .inr (.inr h)
    · rintro (⟨htakes, -⟩ | ⟨text, n, htakes, -⟩ | h)
      · exact absurd htakes.head? hfp
      · exact absurd htakes.head? (hnext text)
      · exact h

/-- Arguments are read up to a closing parenthesis or the end. -/
theorem yields_exps_succ : Yields (exps (fuel + 1)) r es r' ↔
      (r.rest.head?.map Token.sort = none ∨ r.rest.head?.map Token.sort = some .closing) ∧
        es = [] ∧ r' = r ∨
      ∃ sort, r.rest.head?.map Token.sort = some sort ∧ sort ≠ .closing ∧
        ∃ e rest u, es = e :: rest ∧ Yields (exp fuel) r e u ∧ Yields (exps fuel) u rest r' := by
  have hpeek : Yields peek? r _ r := yields_peek?.mpr ⟨rfl, rfl⟩
  rw [exps, hpeek.bind_iff]
  split
  · next hnext =>
    rw [yields_pure, hnext]
    grind
  · next hnext =>
    rw [yields_pure, hnext]
    grind
  · next sort hsort hnext =>
    simp only [yields_bind, yields_pure, hnext]
    grind

/-! ## Fuel -/

/-- Fuel for the tokens that are left is enough for a statement. -/
theorem Heads.yields_stm (kind : Stm.Kind) {r₁ r₂ : Reader} (head : r.Heads kind.keyword r₁)
    (hfuel : r.rest.length ≤ fuel)
    (hform : ∀ {fuel}, r₁.rest.length < fuel → Yields (stmForm fuel kind) r₁ s r₂)
    (close : r₂.Takes .closing r') : Yields (stm fuel) r s r' := by
  have := head.length
  obtain ⟨fuel, rfl⟩ : ∃ k, fuel = k + 1 := ⟨fuel - 1, by omega⟩
  exact yields_stm_succ.mpr ⟨kind, r₁, r₂, head, hform (by omega), close⟩

/-- It is enough for an expression as well. -/
theorem Heads.yields_exp (kind : Exp.Kind) {r₁ r₂ : Reader} (head : r.Heads kind.keyword r₁)
    (hfuel : r.rest.length ≤ fuel)
    (hform : ∀ {fuel}, r₁.rest.length < fuel → Yields (expForm fuel kind) r₁ e r₂)
    (close : r₂.Takes .closing r') : Yields (exp fuel) r e r' := by
  have := head.length
  obtain ⟨fuel, rfl⟩ : ∃ k, fuel = k + 1 := ⟨fuel - 1, by omega⟩
  exact yields_exp_succ.mpr (.inr (.inr ⟨kind, r₁, r₂, head, hform (by omega), close⟩))

/-- A statement begins with a parenthesis. -/
theorem Reads.head?_of_stm (h : r.Reads (.stm s) r') :
    r.rest.head?.map Token.sort = some .opening := by
  cases h with
  | seq head | move head | expStm head | jump head | cjump head | label head =>
    obtain ⟨u, hopen, -⟩ := head
    exact hopen.head?

/-- An expression does not begin with a closing one. -/
theorem Reads.head?_of_exp (h : r.Reads (.exp e) r') :
    ∃ sort, r.rest.head?.map Token.sort = some sort ∧ sort ≠ .closing := by
  cases h with
  | framePointer htakes | numeral htakes => exact ⟨_, htakes.head?, nofun⟩
  | const head | name head | temp head | binop head | not head | mem head | call head | eseq head =>
    obtain ⟨u, hopen, -⟩ := head
    exact ⟨_, hopen.head?, nofun⟩

/-- **What the grammar says is read**, with as much fuel as there are tokens, or one
more for a row of trees. -/
theorem Reads.yields {item : Item} (h : r.Reads item r') {fuel : Nat}
    (hfuel : r.rest.length + item.slack ≤ fuel) : item.YieldedBy fuel r r' := by
  -- a form takes its head before its parts, so there is fuel left for each of them
  induction h generalizing fuel with
  | seq head _ close ih =>
    exact head.yields_stm .seq hfuel (fun hfuel => yields_bind.mpr ⟨_, _, ih hfuel, rfl⟩) close
  | move head left _ close ih ih' =>
    refine head.yields_stm .move hfuel (fun {fuel} hfuel => ?_) close
    simp only [stmForm, yields_bind, yields_pure]
    exact ⟨_, _, ih (Nat.le_of_lt hfuel), _, _, ih' (by grind [Item.slack]), rfl, rfl⟩
  | expStm head _ close ih =>
    exact head.yields_stm .exp hfuel
      (fun hfuel => yields_bind.mpr ⟨_, _, ih (Nat.le_of_lt hfuel), rfl⟩) close
  | jump head target close =>
    exact head.yields_stm .jump hfuel
      (fun _ => yields_bind.mpr ⟨_, _, yields_label.mpr target, rfl⟩) close
  | cjump head relation first _ target close ih ih' =>
    refine head.yields_stm .cjump hfuel (fun {fuel} hfuel => ?_) close
    simp only [stmForm, yields_bind, yields_relation, yields_label, yields_pure]
    exact ⟨_, _, relation, _, _, ih (by grind [Item.slack]), _, _, ih' (by grind [Item.slack]), _, _,
      target, rfl, rfl⟩
  | label head place close =>
    exact head.yields_stm .label hfuel
      (fun _ => yields_bind.mpr ⟨_, _, yields_label.mpr place, rfl⟩) close
  | noStms last =>
    obtain ⟨fuel, rfl⟩ : ∃ k, fuel = k + 1 := ⟨fuel - 1, by grind [Item.slack]⟩
    exact yields_stms_succ.mpr (.inl ⟨last, rfl, rfl⟩)
  | moreStms first _ ih ih' =>
    obtain ⟨fuel, rfl⟩ : ∃ k, fuel = k + 1 := ⟨fuel - 1, by grind [Item.slack]⟩
    exact yields_stms_succ.mpr (.inr ⟨first.head?_of_stm, _, _, _, rfl,
      ih (by grind [Item.slack]), ih' (by grind [Item.slack])⟩)
  | framePointer name =>
    obtain ⟨fuel, rfl⟩ : ∃ k, fuel = k + 1 := ⟨fuel - 1, by grind [Item.slack]⟩
    exact yields_exp_succ.mpr (.inl ⟨name, rfl⟩)
  | numeral atom value =>
    obtain ⟨fuel, rfl⟩ : ∃ k, fuel = k + 1 := ⟨fuel - 1, by grind [Item.slack]⟩
    exact yields_exp_succ.mpr (.inr (.inl ⟨_, _, atom, value, rfl⟩))
  | const head atom value close =>
    exact head.yields_exp .const hfuel
      (fun _ => yields_bind.mpr ⟨_, _, yields_integer.mpr ⟨_, atom, value⟩, rfl⟩) close
  | name head place close =>
    exact head.yields_exp .name hfuel
      (fun _ => yields_bind.mpr ⟨_, _, yields_label.mpr place, rfl⟩) close
  | temp head atom meaning close =>
    obtain ⟨p, hatom⟩ := atom.yields_atom
    exact head.yields_exp .temp hfuel
      (fun _ => yields_bind.mpr ⟨_, _, hatom, yields_bind.mpr ⟨_, _, meaning, rfl⟩⟩) close
  | binop head operator first _ close ih ih' =>
    refine head.yields_exp .binop hfuel (fun {fuel} hfuel => ?_) close
    simp only [expForm, yields_bind, yields_operator, yields_pure]
    exact ⟨_, _, operator, _, _, ih (by grind [Item.slack]), _, _, ih' (by grind [Item.slack]), rfl,
      rfl⟩
  | not head _ close ih =>
    exact head.yields_exp .not hfuel
      (fun hfuel => yields_bind.mpr ⟨_, _, ih (Nat.le_of_lt hfuel), rfl⟩) close
  | mem head _ close ih =>
    exact head.yields_exp .mem hfuel
      (fun hfuel => yields_bind.mpr ⟨_, _, ih (Nat.le_of_lt hfuel), rfl⟩) close
  | call head function _ close ih ih' =>
    refine head.yields_exp .call hfuel (fun {fuel} hfuel => ?_) close
    simp only [expForm, yields_bind, yields_pure]
    exact ⟨_, _, ih (Nat.le_of_lt hfuel), _, _, ih' (by grind [Item.slack]), rfl, rfl⟩
  | eseq head effect _ close ih ih' =>
    refine head.yields_exp .eseq hfuel (fun {fuel} hfuel => ?_) close
    simp only [expForm, yields_bind, yields_pure]
    exact ⟨_, _, ih (Nat.le_of_lt hfuel), _, _, ih' (by grind [Item.slack]), rfl, rfl⟩
  | noExps last =>
    obtain ⟨fuel, rfl⟩ : ∃ k, fuel = k + 1 := ⟨fuel - 1, by grind [Item.slack]⟩
    exact yields_exps_succ.mpr (.inl ⟨last, rfl, rfl⟩)
  | moreExps first _ ih ih' =>
    obtain ⟨fuel, rfl⟩ : ∃ k, fuel = k + 1 := ⟨fuel - 1, by grind [Item.slack]⟩
    obtain ⟨sort, hsort, hno⟩ := first.head?_of_exp
    exact yields_exps_succ.mpr (.inr ⟨sort, hsort, hno, _, _, _, rfl, ih (by grind [Item.slack]),
      ih' (by grind [Item.slack])⟩)

/-- **What is read, the grammar says**, with the same fuel. -/
theorem reads_of_yields (fuel : Nat) (item : Item) {r r' : Reader}
    (hfuel : r.rest.length + item.slack ≤ fuel) (h : item.YieldedBy fuel r r') :
    r.Reads item r' := by
  induction fuel generalizing item r r' with
  | zero =>
    cases item with
    | stm | exp => exact absurd h not_yields_fail
    | stms | exps => grind [Item.slack]
  | succ fuel ih =>
    -- the hypothesis for each sort of item
    have hstm {r r' : Reader} {s : Stm} (hfuel : r.rest.length ≤ fuel)
        (h : Yields (stm fuel) r s r') : r.Reads (.stm s) r' := ih (.stm s) hfuel h
    have hstms {r r' : Reader} {stms : List Stm} (hfuel : r.rest.length + 1 ≤ fuel)
        (h : Yields (Reader.stms fuel) r stms r') : r.Reads (.stms stms) r' :=
      ih (.stms stms) hfuel h
    have hexp {r r' : Reader} {e : Exp} (hfuel : r.rest.length ≤ fuel)
        (h : Yields (exp fuel) r e r') : r.Reads (.exp e) r' := ih (.exp e) hfuel h
    have hexps {r r' : Reader} {es : List Exp} (hfuel : r.rest.length + 1 ≤ fuel)
        (h : Yields (exps fuel) r es r') : r.Reads (.exps es) r' := ih (.exps es) hfuel h
    cases item with
    | stm s =>
      obtain ⟨kind, r₁, r₂, head, hbody, close⟩ := yields_stm_succ.mp h
      have := head.length
      cases kind with
      | seq =>
        simp only [stmForm, yields_bind, yields_pure] at hbody
        obtain ⟨l, _, hl, rfl, rfl⟩ := hbody
        exact .seq head (hstms (by omega) hl) close
      | move =>
        simp only [stmForm, yields_bind, yields_pure] at hbody
        obtain ⟨dst, _, hdst, src, _, hsrc, rfl, rfl⟩ := hbody
        have hdst := hexp (by omega) hdst
        exact .move head hdst (hexp (by grind [Item.slack]) hsrc) close
      | exp =>
        simp only [stmForm, yields_bind, yields_pure] at hbody
        obtain ⟨e, _, he, rfl, rfl⟩ := hbody
        exact .expStm head (hexp (by omega) he) close
      | jump =>
        simp only [stmForm, yields_bind, yields_label, yields_pure] at hbody
        obtain ⟨l, _, hl, rfl, rfl⟩ := hbody
        exact .jump head hl close
      | cjump =>
        simp only [stmForm, yields_bind, yields_relation, yields_label, yields_pure] at hbody
        obtain ⟨rel, _, hrel, a, _, ha, b, _, hb, l, _, hl, rfl, rfl⟩ := hbody
        have ha := hexp (by grind) ha
        exact .cjump head hrel ha (hexp (by grind [Item.slack]) hb) hl close
      | label =>
        simp only [stmForm, yields_bind, yields_label, yields_pure] at hbody
        obtain ⟨l, _, hl, rfl, rfl⟩ := hbody
        exact .label head hl close
    | stms l =>
      obtain ⟨hlast, rfl, rfl⟩ | ⟨-, s, rest, u, rfl, hs, hrest⟩ := yields_stms_succ.mp h
      · exact .noStms hlast
      · have hs := hstm (by grind [Item.slack]) hs
        exact .moreStms hs (hstms (by grind [Item.slack]) hrest)
    | exp e =>
      obtain ⟨htakes, rfl⟩ | ⟨text, n, htakes, hn, rfl⟩ | ⟨kind, r₁, r₂, head, hbody, close⟩ :=
        yields_exp_succ.mp h
      · exact .framePointer htakes
      · exact .numeral htakes hn
      · have := head.length
        cases kind with
        | const =>
          simp only [expForm, yields_bind, yields_integer, yields_pure] at hbody
          obtain ⟨n, _, ⟨text, htakes, hn⟩, rfl, rfl⟩ := hbody
          exact .const head htakes hn close
        | name =>
          simp only [expForm, yields_bind, yields_label, yields_pure] at hbody
          obtain ⟨l, _, hl, rfl, rfl⟩ := hbody
          exact .name head hl close
        | temp =>
          simp only [expForm, yields_bind, yields_pure] at hbody
          obtain ⟨entry, _, hentry, t, _, ht, rfl, rfl⟩ := hbody
          exact .temp head (takes_of_atom hentry) ht close
        | binop =>
          simp only [expForm, yields_bind, yields_operator, yields_pure] at hbody
          obtain ⟨op, _, hop, a, _, ha, b, _, hb, rfl, rfl⟩ := hbody
          have ha := hexp (by grind) ha
          exact .binop head hop ha (hexp (by grind [Item.slack]) hb) close
        | not =>
          simp only [expForm, yields_bind, yields_pure] at hbody
          obtain ⟨e, _, he, rfl, rfl⟩ := hbody
          exact .not head (hexp (by omega) he) close
        | mem =>
          simp only [expForm, yields_bind, yields_pure] at hbody
          obtain ⟨e, _, he, rfl, rfl⟩ := hbody
          exact .mem head (hexp (by omega) he) close
        | call =>
          simp only [expForm, yields_bind, yields_pure] at hbody
          obtain ⟨f, _, hf, args, _, hargs, rfl, rfl⟩ := hbody
          have hf := hexp (by omega) hf
          exact .call head hf (hexps (by grind [Item.slack]) hargs) close
        | eseq =>
          simp only [expForm, yields_bind, yields_pure] at hbody
          obtain ⟨s, _, hs, e, _, he, rfl, rfl⟩ := hbody
          have hs := hstm (by omega) hs
          exact .eseq head hs (hexp (by grind [Item.slack]) he) close
    | exps es =>
      obtain ⟨hlast, rfl, rfl⟩ | ⟨_, -, -, e, rest, u, rfl, he, hrest⟩ := yields_exps_succ.mp h
      · exact .noExps hlast
      · have he := hexp (by grind [Item.slack]) he
        exact .moreExps he (hexps (by grind [Item.slack]) hrest)

/-- **The reader reads statements by the grammar**, given enough fuel. -/
theorem yields_stm_iff (hfuel : r.rest.length ≤ fuel) :
    Yields (stm fuel) r s r' ↔ r.Reads (.stm s) r' :=
  ⟨reads_of_yields fuel (.stm s) hfuel, fun h => h.yields hfuel⟩

/-! ## Methods -/

/-- A method is read: its keyword, its name, and its body, with a table of its own. -/
def ReadsMethod (r : Reader) (m : MethodText) (r' : Reader) : Prop :=
  ∃ r₁ r₂ r₃, r.Heads "method" r₁ ∧ r₁.Takes (.atom m.name) r₂ ∧
    Reads { r₂ with temps := [] } (.stm m.body) r₃ ∧ r₃.Takes .closing r' ∧ m.temps = r'.temps

/-- Methods are read up to the end of the tokens. -/
inductive ReadsMethods : Reader → List MethodText → Reader → Prop
  | nil {r : Reader} (last : r.rest = []) : ReadsMethods r [] r
  | cons {r₀ r₁ r₂ : Reader} {m : MethodText} {ms : List MethodText} (first : r₀.ReadsMethod m r₁)
      (rest : ReadsMethods r₁ ms r₂) : ReadsMethods r₀ (m :: ms) r₂

/-- The reader of a text, before anything is read. -/
def ofText (text : String) (session : Session) : Reader where
  rest := tokens text
  last := ((tokens text).getLast?.map Token.position).getD Position.start
  session

/-- A method takes tokens. -/
theorem ReadsMethod.length_lt {m : MethodText} (h : r.ReadsMethod m r') :
    r'.rest.length < r.rest.length := by
  obtain ⟨r₁, r₂, r₃, head, name, body, close, -⟩ := h
  grind [Item.slack]

/-- **It reads methods by the grammar.** -/
theorem yields_method_iff {m : MethodText} (hfuel : r.rest.length ≤ fuel) :
    Yields (method fuel) r m r' ↔ r.ReadsMethod m r' := by
  have hbody {name : String} {u : Reader} (hu : u.rest.length ≤ fuel) : Yields (do
        modify fun r => { r with temps := [] }
        let body ← stm fuel
        closing
        return { name, body, temps := (← get).temps } : ReadM MethodText) u m r' ↔
      ∃ v, Reads { u with temps := [] } (.stm m.body) v ∧ v.Takes .closing r' ∧
        m.temps = r'.temps ∧ m.name = name := by
    have hstm {v : Reader} {s : Stm} : Yields (stm fuel) { u with temps := [] } s v ↔
        Reads { u with temps := [] } (.stm s) v :=
      yields_stm_iff hu
    simp only [yields_bind, yields_modify, yields_closing, yields_get, yields_pure]
    constructor
    · rintro ⟨_, _, rfl, body, v, hv, _, w, hclose, _, _, ⟨rfl, rfl⟩, rfl, rfl⟩
      exact ⟨v, hstm.mp hv, hclose, rfl, rfl⟩
    · rintro ⟨v, hv, hclose, htemps, hname⟩
      refine ⟨(), _, rfl, m.body, v, hstm.mpr hv, (), r', hclose, r', r', ⟨rfl, rfl⟩, ?_, rfl⟩
      rw [← htemps, ← hname]
  constructor
  · intro h
    obtain ⟨_, u, hopen, h⟩ := yields_bind.mp h
    obtain ⟨⟨keyword, p⟩, r₁, hkeyword, h⟩ := yields_bind.mp h
    have hhead : r.Heads keyword r₁ := ⟨u, yields_opening.mp hopen, takes_of_atom hkeyword⟩
    dsimp only at h
    split at h
    · exact absurd (yields_bind.mp h) (by simp [failAt])
    · next hmethod =>
      obtain rfl := Decidable.not_not.mp hmethod
      obtain ⟨⟨name, q⟩, r₂, hname, h⟩ := yields_bind.mp h
      have hname := takes_of_atom hname
      obtain ⟨r₃, hbody, hclose, htemps, rfl⟩ := (hbody (by grind)).mp h
      exact ⟨r₁, r₂, r₃, hhead, hname, hbody, hclose, htemps⟩
  · rintro ⟨r₁, r₂, r₃, hhead, hname, hbody', hclose, htemps⟩
    have hlength : r₂.rest.length ≤ fuel := by grind
    obtain ⟨u, hopen, hkeyword⟩ := hhead
    obtain ⟨p, hkeyword⟩ := hkeyword.yields_atom
    obtain ⟨q, hname⟩ := hname.yields_atom
    refine yields_bind.mpr ⟨(), u, yields_opening.mpr hopen, yields_bind.mpr ⟨_, r₁, hkeyword, ?_⟩⟩
    exact yields_bind.mpr ⟨_, r₂, hname, (hbody hlength).mpr ⟨r₃, hbody', hclose, htemps, rfl⟩⟩

/-- **It reads all methods of a text by the grammar.** -/
theorem yields_methods_iff (hfuel : r.rest.length + 1 ≤ fuel) :
    Yields (methods fuel) r ms r' ↔ r.ReadsMethods ms r' := by
  induction fuel generalizing r ms with
  | zero => omega
  | succ fuel ih =>
    have hget : Yields (get : ReadM Reader) r r r := rfl
    rw [methods, hget.bind_iff]
    split
    · next hempty =>
      rw [List.isEmpty_iff] at hempty
      rw [yields_pure]
      constructor
      · rintro ⟨rfl, rfl⟩
        exact .nil hempty
      · intro h
        cases h with
        | nil => exact ⟨rfl, rfl⟩
        | cons first =>
          have := first.length_lt
          grind
    · next hempty =>
      simp only [yields_bind, yields_pure, yields_method_iff (show r.rest.length ≤ fuel by omega)]
      constructor
      · rintro ⟨m, u, hm, rest, _, hrest, rfl, rfl⟩
        have := hm.length_lt
        exact .cons hm ((ih (by omega)).mp hrest)
      · intro h
        cases h with
        | nil last => simp [last] at hempty
        | cons first rest =>
          have := first.length_lt
          exact ⟨_, _, first, _, _, (ih (by omega)).mpr rest, rfl, rfl⟩

/-- A text is read with fuel for all of its tokens. -/
theorem yields_overText {α : Type} {read : Nat → ReadM α} {a : α} :
    Yields (overText read text) session a session' ↔
      ∃ r', Yields (read ((tokens text).length + 2)) (ofText text session) a r' ∧
        r'.session = session' := by
  show (((read ((tokens text).length + 2)).run.run (ofText text session)).1,
    ((read ((tokens text).length + 2)).run.run (ofText text session)).2.session)
      = ((.ok a, session') : Except Error α × Session) ↔ _
  unfold Yields
  cases (read ((tokens text).length + 2)).run.run (ofText text session) with
  | mk result r' =>
    constructor
    · intro h
      obtain ⟨rfl, rfl⟩ := Prod.mk.inj h
      exact ⟨r', rfl, rfl⟩
    · rintro ⟨_, h, rfl⟩
      obtain ⟨rfl, rfl⟩ := Prod.mk.inj h
      rfl

end Reader

/-- **A text of one statement**: the grammar reads all of it. -/
theorem yields_readStm_iff {s : Stm} {temps : List (String × Temp)} :
    Yields (readStm text) session (s, temps) session' ↔
      ∃ r', (Reader.ofText text session).Reads (.stm s) r' ∧ r'.rest = [] ∧ r'.temps = temps ∧
        r'.session = session' := by
  have hfuel : (Reader.ofText text session).rest.length ≤ (tokens text).length + 2 :=
    Nat.le_add_right _ _
  rw [readStm, Reader.yields_overText]
  constructor
  · rintro ⟨r', h, rfl⟩
    obtain ⟨stm, u, hstm, h⟩ := yields_bind.mp h
    have hget : Yields (get : ReadM Reader) u u u := rfl
    rw [hget.bind_iff] at h
    split at h
    · next hempty =>
      simp only [yields_bind, Reader.yields_get, yields_pure] at h
      obtain ⟨_, _, ⟨rfl, rfl⟩, heq, rfl⟩ := h
      obtain ⟨rfl, rfl⟩ := Prod.mk.inj heq
      exact ⟨_, (Reader.yields_stm_iff hfuel).mp hstm, List.isEmpty_iff.mp hempty, rfl, rfl⟩
    · exact absurd (yields_bind.mp h) (by simp)
  · rintro ⟨r', h, hempty, rfl, rfl⟩
    refine ⟨r', yields_bind.mpr ⟨s, r', (Reader.yields_stm_iff hfuel).mpr h,
      yields_bind.mpr ⟨r', r', rfl, ?_⟩⟩, rfl⟩
    rw [if_pos (by rw [hempty]; rfl)]
    rfl

/-- **A text of methods**: the grammar reads one after the other. -/
theorem yields_readMethods_iff : Yields (readMethods text) session ms session' ↔
      ∃ r', (Reader.ofText text session).ReadsMethods ms r' ∧ r'.session = session' := by
  rw [readMethods, Reader.yields_overText]
  simp only [Reader.yields_methods_iff
    (show (Reader.ofText text session).rest.length + 1 ≤ (tokens text).length + 2 from
      Nat.le_succ _)]

end Text

end TreeBackend
