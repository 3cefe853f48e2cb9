import TreeBackend.Proofs.ExpectedRows
import TreeBackend.Proofs.ReadForms
import TreeBackend.Proofs.TokenPlaces

/-!
# Where faults are reported

Some faults quote an atom of the text: one that is no keyword where a keyword is expected, no
numeral, no relation, no operator. Such an atom is where a text **breaks off**: what stands before
it is the beginning of some text that can be read, and with the atom it no longer is
(`BreaksAt`). There is one such place in a text (`BreaksAt.unique`).

The reader is followed with an agenda of what is still to come (`Follows`): whatever it reads takes
the agenda further, and if it quotes an atom, the agenda does not get past this atom. What is
reported is the place of the atom, for keywords and numerals. A relation or an operator is looked
up when its name has been taken, and a fault is then reported at the token after it
(`quoted_atom_place`).
-/

namespace TreeBackend

open List

namespace Text

/-! ## Faults that quote an atom -/

/-- The atom of the text that a fault **quotes**. -/
def quoted? : SyntaxFault → Option String
  | .notInteger text => some text
  | .expectedMethod found => some found
  | .unknownStatement keyword => some keyword
  | .unknownExpression keyword => some keyword
  | .unknownRelation name => some name
  | .unknownOperator name => some name
  | .expectedOpen | .expectedClose | .expectedName | .trailingInput => none

/-- Whether a fault is reported **late**, when the atom has been taken. -/
def isLate : SyntaxFault → Bool
  | .unknownRelation _ | .unknownOperator _ => true
  | _ => false

namespace Reader

open Expected (remaining remaining_append)

/-! ## Following the reader -/

/-- The reader **blames** the atom `a` with a fault: the agenda gets past the tokens before it, and
not past the atom. A late fault is placed at what comes after the atom. -/
def Blames (r : Reader) (agenda : List Expected) (position : Position) (fault : SyntaxFault)
    (a : String) : Prop :=
  ∃ taken p rest, r.rest = taken ++ ⟨.atom a, p⟩ :: rest ∧
    position = (if isLate fault then { r with rest }.place else p) ∧
    ∀ more, (remaining (agenda ++ more) (taken.map Token.sort)).isSome = true ∧
      remaining (agenda ++ more) (taken.map Token.sort ++ [.atom a]) = none

/-- A computation **follows** an agenda: what it takes leads from one agenda to the next, and it
blames an atom only if the agenda does not get past it. -/
structure Follows {α : Type} (act : ReadM α) (r : Reader) (agenda : List Expected)
    (next : α → List Expected) : Prop where
  yields : ∀ {a : α} {r' : Reader}, Yields act r a r' → ∃ taken, r.rest = taken ++ r'.rest ∧
    r'.last = r.last ∧
    ∀ more, remaining (agenda ++ more) (taken.map Token.sort) = some (next a ++ more)
  fails : ∀ {position : Position} {fault : SyntaxFault} {a : String},
    FailsWith act r (.parse position fault) → quoted? fault = some a →
      r.Blames agenda position fault a

section Follows

variable {α β : Type} {act : ReadM α} {f : α → ReadM β} {r r' : Reader}
  {agenda : List Expected} {next : α → List Expected} {last : β → List Expected}

variable {fault : SyntaxFault} {e : Error} {text : String} {p : Position}

/-- What is blamed later is blamed from the start. -/
theorem Blames.of_later {agenda' : List Expected} {position : Position} {a : String}
    {taken : List Token} (hrest : r.rest = taken ++ r'.rest) (hlast : r'.last = r.last)
    (htaken : ∀ more, remaining (agenda ++ more) (taken.map Token.sort) = some (agenda' ++ more))
    (h : r'.Blames agenda' position fault a) : r.Blames agenda position fault a := by
  obtain ⟨taken', p, rest, hrest', hposition, hstuck⟩ := h
  refine ⟨taken ++ taken', p, rest, ?_, ?_, fun more => ?_⟩
  · rw [hrest, hrest', append_assoc]
  · rw [hposition]
    have hplace : { r' with rest }.place = { r with rest }.place := by
      cases rest with
      | nil => exact hlast
      | cons => rfl
    rw [hplace]
  · rw [map_append, append_assoc, remaining_append, remaining_append, htaken]
    exact hstuck more

/-- **One computation after the other.** -/
theorem Follows.bind (h : Follows act r agenda next)
    (hf : ∀ {a r'}, Yields act r a r' → Follows (f a) r' (next a) last) :
    Follows (act >>= f) r agenda last := by
  constructor
  · intro b r'' hyields
    obtain ⟨a, r', ha, hb⟩ := yields_bind.mp hyields
    obtain ⟨taken, hrest, hlast, htaken⟩ := h.yields ha
    obtain ⟨taken', hrest', hlast', htaken'⟩ := (hf ha).yields hb
    refine ⟨taken ++ taken', by rw [hrest, hrest', append_assoc], hlast'.trans hlast,
      fun more => ?_⟩
    rw [map_append, remaining_append, htaken]
    exact htaken' more
  · intro position fault a hfails hquoted
    obtain hfails | ⟨b, r', hb, hfails⟩ := failsWith_bind.mp hfails
    · exact h.fails hfails hquoted
    · obtain ⟨taken, hrest, hlast, htaken⟩ := h.yields hb
      exact ((hf hb).fails hfails hquoted).of_later hrest hlast htaken

/-- A computation that takes no token and quotes no atom leaves the agenda as it is. -/
theorem follows_of_quiet
    (hyields : ∀ {a r'}, Yields act r a r' → r'.rest = r.rest ∧ r'.last = r.last)
    (hfails : ∀ {position fault}, FailsWith act r (.parse position fault) → quoted? fault = none) :
    Follows act r agenda fun _ => agenda := by
  constructor
  · intro a r' h
    obtain ⟨hrest, hlast⟩ := hyields h
    exact ⟨[], hrest.symm, hlast, fun more => rfl⟩
  · intro position fault a h hquoted
    rw [hfails h] at hquoted
    cases hquoted

/-- Doing nothing leaves the agenda as it is. -/
theorem follows_pure {a : α} : Follows (pure a) r agenda fun _ => agenda :=
  follows_of_quiet (fun h => by
    obtain ⟨-, rfl⟩ := yields_pure.mp h
    exact ⟨rfl, rfl⟩) fun h => absurd h not_failsWith_pure

/-- What comes after the part that a computation reads stays on the agenda. -/
theorem Follows.frame (h : Follows act r agenda next) (rest : List Expected) :
    Follows act r (agenda ++ rest) fun a => next a ++ rest := by
  constructor
  · intro a r' hyields
    obtain ⟨taken, hrest, hlast, htaken⟩ := h.yields hyields
    refine ⟨taken, hrest, hlast, fun more => ?_⟩
    rw [append_assoc, htaken, append_assoc]
  · intro position fault a hfails hquoted
    obtain ⟨taken, p, after, hrest, hposition, hstuck⟩ := h.fails hfails hquoted
    refine ⟨taken, p, after, hrest, hposition, fun more => ?_⟩
    rw [append_assoc]
    exact hstuck (rest ++ more)

/-! ## Single tokens -/

variable {x : Expected} {body rest : List Expected}

/-- What is expected first is read first. -/
theorem Follows.first (h : Follows act r [x] fun _ => [])
    (hf : ∀ {a r'}, Yields act r a r' → Follows (f a) r' rest last) :
    Follows (act >>= f) r (x :: rest) last := (h.frame rest).bind hf

theorem yields_get_self (r : Reader) : Yields (get : ReadM Reader) r r r := rfl

@[simp] theorem failsWith_fail :
    FailsWith (fail fault : ReadM α) r e ↔ .parse r.place fault = e := by
  simp only [fail, failAt, (yields_get_self r).failsWith_bind_iff, failsWith_throw]

@[simp] theorem not_failsWith_modify {change : Reader → Reader} :
    ¬ FailsWith (modify change : ReadM Unit) r e :=
  (yields_modify (a := ()).mpr rfl).not_failsWith

/-- A missing parenthesis is reported where the reader stands. -/
theorem failsWith_opening (h : FailsWith opening r e) : e = .parse r.place .expectedOpen := by
  rw [opening, (yields_get_self r).failsWith_bind_iff] at h
  split at h
  · exact absurd h not_failsWith_modify
  · exact (failsWith_fail.mp h).symm

theorem failsWith_closing (h : FailsWith closing r e) : e = .parse r.place .expectedClose := by
  rw [closing, (yields_get_self r).failsWith_bind_iff] at h
  split at h
  · exact absurd h not_failsWith_modify
  · exact (failsWith_fail.mp h).symm

/-- So is a missing name. -/
theorem failsWith_atom (h : FailsWith atom r e) : e = .parse r.place .expectedName := by
  rw [atom, (yields_get_self r).failsWith_bind_iff] at h
  split at h
  · obtain h | ⟨_, _, -, h⟩ := failsWith_bind.mp h
    · exact absurd h not_failsWith_modify
    · exact absurd h not_failsWith_pure
  · exact (failsWith_fail.mp h).symm

/-- An atom is read with its own position. -/
theorem exists_of_atom (h : Yields atom r (text, p) r') :
    ∃ tail, r.rest = ⟨.atom text, p⟩ :: tail ∧ r' = { r with rest := tail } := by
  rw [atom, (yields_get_self r).bind_iff] at h
  split at h
  · next text' p' tail hrest =>
    simp only [yields_bind, yields_modify, yields_pure] at h
    obtain ⟨_, _, rfl, heq, rfl⟩ := h
    cases heq
    exact ⟨tail, hrest, rfl⟩
  · exact absurd h not_yields_fail

/-- **Taking a token** that the agenda allows for follows it. -/
theorem follows_of_takes {sort : Token.Sort} (hx : x.after sort = some body)
    (hyields : ∀ {a r'}, Yields act r a r' → r.Takes sort r')
    (hfails : ∀ {position fault}, FailsWith act r (.parse position fault) → quoted? fault = none) :
    Follows act r [x] fun _ => body := by
  constructor
  · intro a r' h
    obtain ⟨p, tail, hrest, rfl⟩ := hyields h
    refine ⟨[⟨sort, p⟩], hrest, rfl, fun more => ?_⟩
    show (x.after sort).bind _ = _
    rw [hx]
    rfl
  · intro position fault a h hquoted
    rw [hfails h] at hquoted
    cases hquoted

theorem follows_opening (hx : x.after .opening = some body) : Follows opening r [x] fun _ => body :=
  follows_of_takes hx yields_opening.mp fun h => by
    obtain ⟨-, rfl⟩ := Error.parse.inj (failsWith_opening h)
    rfl

theorem follows_closing (hx : x.after .closing = some body) : Follows closing r [x] fun _ => body :=
  follows_of_takes hx yields_closing.mp fun h => by
    obtain ⟨-, rfl⟩ := Error.parse.inj (failsWith_closing h)
    rfl

/-- A computation that **complains** of the atom just taken. -/
structure Complains {α : Type} (act : ReadM α) (r : Reader) (text : String) (p : Position) :
    Prop where
  not_yields : ∀ {a : α} {r' : Reader}, ¬ Yields act r a r'
  fails : ∀ {position : Position} {fault : SyntaxFault}, FailsWith act r (.parse position fault) →
      quoted? fault = some text ∧ position = if isLate fault then r.place else p

/-- An atom is taken: it takes the agenda further, or is complained of. -/
theorem follows_atom_bind {g : String × Position → ReadM β}
    (h : ∀ {text p tail}, r.rest = ⟨.atom text, p⟩ :: tail →
      (∃ body, x.after (.atom text) = some body ∧
        Follows (g (text, p)) { r with rest := tail } (body ++ rest) last) ∨
      x.after (.atom text) = none ∧ Complains (g (text, p)) { r with rest := tail } text p) :
    Follows (atom >>= g) r (x :: rest) last := by
  have hone : ∀ {text body}, x.after (.atom text) = some body → ∀ more,
      remaining (x :: rest ++ more) [.atom text] = some (body ++ rest ++ more) := by
    intro text body hbody more
    show (x.after (.atom text)).bind _ = _
    rw [hbody, append_assoc]
    rfl
  constructor
  · intro b r'' hyields
    obtain ⟨⟨text, p⟩, r', hatom, hb⟩ := yields_bind.mp hyields
    obtain ⟨tail, hrest, rfl⟩ := exists_of_atom hatom
    obtain ⟨body, hbody, hg⟩ | ⟨-, hg⟩ := h hrest
    · obtain ⟨taken, hrest', hlast, htaken⟩ := hg.yields hb
      refine ⟨⟨.atom text, p⟩ :: taken, hrest.trans (congrArg _ hrest'), hlast, fun more => ?_⟩
      show remaining (x :: rest ++ more) ([.atom text] ++ taken.map Token.sort) = _
      rw [remaining_append, hone hbody]
      exact htaken more
    · exact absurd hb hg.not_yields
  · intro position fault a hfails hquoted
    obtain hfails | ⟨⟨text, p⟩, r', hatom, hfails⟩ := failsWith_bind.mp hfails
    · obtain ⟨-, rfl⟩ := Error.parse.inj (failsWith_atom hfails)
      cases hquoted
    · obtain ⟨tail, hrest, rfl⟩ := exists_of_atom hatom
      obtain ⟨body, hbody, hg⟩ | ⟨hnone, hg⟩ := h hrest
      · have htaken : r.rest = [⟨.atom text, p⟩] ++ { r with rest := tail }.rest := hrest
        exact (hg.fails hfails hquoted).of_later htaken rfl (hone hbody)
      · obtain ⟨hquoted', hposition⟩ := hg.fails hfails
        obtain rfl : text = a := Option.some.inj (hquoted'.symm.trans hquoted)
        refine ⟨[], p, tail, hrest, hposition, fun more => ⟨rfl, ?_⟩⟩
        show (x.after (.atom text)).bind _ = none
        rw [hnone]
        rfl

/-- A complaint about an atom that was read names its position. -/
theorem complains_failAt (hquoted : quoted? fault = some text) (hlate : isLate fault = false) :
    Complains (failAt p fault : ReadM α) r text p := by
  refine ⟨fun h => by simp [failAt] at h, fun h => ?_⟩
  obtain ⟨rfl, rfl⟩ := Error.parse.inj (failsWith_throw.mp h)
  rw [hlate]
  exact ⟨hquoted, rfl⟩

/-- A late complaint is made at the token after the atom. -/
theorem complains_fail (hquoted : quoted? fault = some text) (hlate : isLate fault = true) :
    Complains (fail fault : ReadM α) r text p := by
  refine ⟨not_yields_fail, fun h => ?_⟩
  obtain ⟨rfl, rfl⟩ := Error.parse.inj (failsWith_fail.mp h)
  rw [hlate]
  exact ⟨hquoted, rfl⟩

/-- An atom is taken for what it stands for, and complained of if it stands for nothing. -/
theorem follows_looked_up {g : String × Position → ReadM α} (lookUp : String → Option α)
    (hafter : ∀ {text p tail}, r.rest = ⟨.atom text, p⟩ :: tail →
      x.after (.atom text) = (lookUp text).map next)
    (hsome : ∀ {text p a}, lookUp text = some a → g (text, p) = pure a)
    (hnone : ∀ {text p r}, lookUp text = none → Complains (g (text, p)) r text p) :
    Follows (atom >>= g) r [x] next := by
  refine follows_atom_bind fun {text p tail} hrest => ?_
  rw [hafter hrest]
  cases hlook : lookUp text with
  | some a =>
    rw [hsome hlook]
    refine .inl ⟨next a, rfl, fun h => ?_, fun h => absurd h not_failsWith_pure⟩
    obtain ⟨rfl, rfl⟩ := yields_pure.mp h
    exact ⟨[], rfl, rfl, fun more => by rw [append_nil]; rfl⟩
  | none => exact .inr ⟨rfl, hnone hlook⟩

/-- A number is followed unless its atom spells none. -/
theorem follows_integer (hafter : ∀ {text p tail}, r.rest = ⟨.atom text, p⟩ :: tail →
      x.after (.atom text) = (Word.ofNumeral? text).map fun _ => []) :
    Follows integer r [x] fun _ => [] := by
  refine follows_looked_up Word.ofNumeral? hafter (fun h => ?_) fun h => ?_
  · simp only [h]
  · simp only [h]
    exact complains_failAt rfl rfl

theorem follows_relation : Follows relation r [.relation] fun _ => [] := by
  refine follows_looked_up RelOp.ofName? (fun _ => rfl) (fun h => ?_) fun h => ?_
  · simp only [h]
  · simp only [h]
    exact complains_fail rfl rfl

theorem follows_operator : Follows operator r [.operator] fun _ => [] := by
  refine follows_looked_up BinOp.ofName? (fun _ => rfl) (fun h => ?_) fun h => ?_
  · simp only [h]
  · simp only [h]
    exact complains_fail rfl rfl

/-- A keyword settles what is expected after it. -/
theorem follows_stmKind : Follows stmKind r [.stmHead] Expected.stmBody := by
  refine follows_looked_up Stm.Kind.ofKeyword? (fun _ => rfl) (fun h => ?_) fun h => ?_
  · simp only [h]
  · simp only [h]
    exact complains_failAt rfl rfl

theorem follows_expKind : Follows expKind r [.expHead] Expected.expBody := by
  refine follows_looked_up Exp.Kind.ofKeyword? (fun _ => rfl) (fun h => ?_) fun h => ?_
  · simp only [h]
  · simp only [h]
    exact complains_failAt rfl rfl

theorem follows_name_bind {g : String × Position → ReadM β}
    (hg : ∀ {entry r'}, Follows (g entry) r' rest last) :
    Follows (atom >>= g) r (.name :: rest) last :=
  follows_atom_bind fun _ => .inl ⟨[], rfl, hg⟩

/-- Any name is good for a label. -/
theorem follows_label : Follows label r [.name] fun _ => [] := by
  refine follows_name_bind fun {entry r'} => follows_of_quiet (fun h => ?_) fun h => ?_
  · obtain ⟨-, rfl⟩ := yields_inSession.mp h
    exact ⟨rfl, rfl⟩
  · exact absurd h (yields_inSession.mpr ⟨rfl, rfl⟩).not_failsWith

/-- Looking up a temp reads nothing. -/
theorem follows_temp {name : String} : Follows (temp name) r agenda fun _ => agenda := by
  refine follows_of_quiet (fun h => ?_) fun h => ?_
  · obtain ⟨-, -, rfl⟩ | ⟨-, -, rfl⟩ | ⟨-, -, -, rfl⟩ := yields_temp.mp h
    · exact ⟨rfl, rfl⟩
    · exact ⟨rfl, rfl⟩
    · exact ⟨rfl, rfl⟩
  · obtain ⟨t, r', ht⟩ := exists_temp name r
    exact absurd h ht.not_failsWith

/-! ## Rows -/

/-- Looking ahead reads nothing. -/
theorem follows_peek_bind {g : Option Token.Sort → ReadM β}
    (h : Follows (g (r.rest.head?.map Token.sort)) r agenda last) :
    Follows (peek? >>= g) r agenda last := by
  have hpeek : Yields peek? r _ r := yields_peek?.mpr ⟨rfl, rfl⟩
  exact ⟨fun hyields => h.yields (hpeek.bind_iff.mp hyields),
    fun hfails => h.fails (hpeek.failsWith_bind_iff.mp hfails)⟩

/-- A row that goes on has a part and the rest of the row before it. -/
theorem Follows.unroll {y : Expected} (h : Follows act r [y, x] next) (hnext : ∀ a, next a ≠ [y, x])
    (hafter : ∀ {sort}, r.rest.head?.map Token.sort = some sort →
      x.after sort = (y.after sort).map (· ++ [x])) :
    Follows act r [x] next := by
  have hsame : ∀ {sort row}, r.rest.head?.map Token.sort = some sort → ∀ more,
      remaining ([x] ++ more) (sort :: row) = remaining ([y, x] ++ more) (sort :: row) := by
    intro sort row hsort more
    show (x.after sort).bind _ = (y.after sort).bind _
    rw [hafter hsort, Option.bind_map]
    refine Option.bind_congr fun body _ => ?_
    rw [Function.comp_apply, append_assoc]
    rfl
  constructor
  · intro a r' hyields
    obtain ⟨taken, hrest, hlast, htaken⟩ := h.yields hyields
    refine ⟨taken, hrest, hlast, fun more => ?_⟩
    cases taken with
    | nil =>
      -- Where nothing is taken, the part would still be on the agenda.
      have hnil := Option.some.inj (htaken [])
      rw [append_nil, append_nil] at hnil
      exact absurd hnil.symm (hnext a)
    | cons token taken =>
      rw [← htaken more]
      exact hsame (by rw [hrest]; rfl) more
  · intro position fault a hfails hquoted
    obtain ⟨taken, p, tail, hrest, hposition, hstuck⟩ := h.fails hfails hquoted
    refine ⟨taken, p, tail, hrest, hposition, fun more => ?_⟩
    cases taken with
    | nil => exact ⟨rfl, (hsame (by rw [hrest]; rfl) more).trans (hstuck more).2⟩
    | cons token taken =>
      have hsame : ∀ {row}, remaining ([x] ++ more) (token.sort :: row)
          = remaining ([y, x] ++ more) (token.sort :: row) := hsame (by rw [hrest]; rfl) more
      exact ⟨(congrArg Option.isSome hsame).trans (hstuck more).1, hsame.trans (hstuck more).2⟩

theorem follows_get_bind {g : Reader → ReadM β} (h : Follows (g r) r agenda last) :
    Follows (get >>= g) r agenda last :=
  ⟨fun hyields => h.yields ((yields_get_self r).bind_iff.mp hyields),
    fun hfails => h.fails ((yields_get_self r).failsWith_bind_iff.mp hfails)⟩

/-- A fault that quotes no atom breaks no promise. -/
theorem follows_fail (hfault : quoted? fault = none) : Follows (fail fault) r agenda next := by
  refine ⟨fun h => absurd h not_yields_fail, fun h hquoted => ?_⟩
  obtain ⟨-, rfl⟩ := Error.parse.inj (failsWith_fail.mp h)
  rw [hfault] at hquoted
  cases hquoted

/-! ## Trees -/

/-- A form in parentheses, with a keyword for each kind. -/
theorem follows_headed {κ : Type} {kind : ReadM κ} {bodies : κ → List Expected} {y : Expected}
    (form : κ → ReadM α) {g : κ → ReadM α} (hx : x.after .opening = some [y])
    (hkind : ∀ {r}, Follows kind r [y] bodies)
    (hform : ∀ k, ∃ z : Expected, z.after .closing = some [] ∧
      ∀ {r}, Follows (form k) r (bodies k) fun _ => [z])
    (hg : ∀ k, g k = (do
      let a ← form k
      closing
      return a)) :
    Follows (do
      opening
      g (← kind)) r [x] fun _ => [] := by
  obtain rfl := funext hg
  refine (follows_opening hx).bind fun _ => hkind.bind fun {k r'} _ => ?_
  obtain ⟨z, hz, hform⟩ := hform k
  exact hform.bind fun _ => (follows_closing hz).bind fun _ => follows_pure

end Follows

/-- The functions for trees **follow** what they are called for. -/
structure FollowsTrees (fuel : Nat) : Prop where
  stm : ∀ {r}, Follows (Reader.stm fuel) r [.stm] fun _ => []
  stms : ∀ {r}, Follows (Reader.stms fuel) r [.stms] fun _ => [.stms]
  exp : ∀ {r}, Follows (Reader.exp fuel) r [.exp] fun _ => []
  exps : ∀ {r}, Follows (Reader.exps fuel) r [.exps] fun _ => [.exps]

namespace FollowsTrees

variable {fuel : Nat} {r : Reader}

/-- What a kind of statement asks for, up to its parenthesis. -/
theorem stmForm (h : FollowsTrees fuel) (kind : Stm.Kind) :
    ∃ z : Expected, z.after .closing = some [] ∧
      ∀ {r}, Follows (Reader.stmForm fuel kind) r (Expected.stmBody kind) fun _ => [z] := by
  cases kind with
  | seq => exact ⟨.stms, rfl, h.stms.bind fun _ => follows_pure⟩
  | move => exact ⟨.closing, rfl, h.exp.first fun _ => h.exp.first fun _ => follows_pure⟩
  | exp => exact ⟨.closing, rfl, h.exp.first fun _ => follows_pure⟩
  | jump | label => exact ⟨.closing, rfl, follows_label.first fun _ => follows_pure⟩
  | cjump =>
    exact ⟨.closing, rfl, follows_relation.first fun _ => h.exp.first fun _ => h.exp.first fun _ =>
      follows_label.first fun _ => follows_pure⟩

/-- What a kind of expression asks for, up to its parenthesis. -/
theorem expForm (h : FollowsTrees fuel) (kind : Exp.Kind) :
    ∃ z : Expected, z.after .closing = some [] ∧
      ∀ {r}, Follows (Reader.expForm fuel kind) r (Expected.expBody kind) fun _ => [z] := by
  cases kind with
  | const => exact ⟨.closing, rfl, (follows_integer fun _ => rfl).first fun _ => follows_pure⟩
  | name => exact ⟨.closing, rfl, follows_label.first fun _ => follows_pure⟩
  | temp => exact ⟨.closing, rfl, follows_name_bind (follows_temp.bind fun _ => follows_pure)⟩
  | binop =>
    exact ⟨.closing, rfl, follows_operator.first fun _ => h.exp.first fun _ => h.exp.first fun _ =>
      follows_pure⟩
  | not | mem => exact ⟨.closing, rfl, h.exp.first fun _ => follows_pure⟩
  | call => exact ⟨.exps, rfl, h.exp.first fun _ => h.exps.bind fun _ => follows_pure⟩
  | eseq => exact ⟨.closing, rfl, h.stm.first fun _ => h.exp.first fun _ => follows_pure⟩

/-- Without fuel nothing is read. -/
theorem zero : FollowsTrees 0 where
  stm := follows_fail rfl
  stms := follows_pure
  exp := follows_fail rfl
  exps := follows_pure

/-- One more level of nesting. -/
theorem succ (h : FollowsTrees fuel) : FollowsTrees (fuel + 1) := by
  constructor
  case stm =>
    intro r
    exact follows_headed (Reader.stmForm fuel) rfl follows_stmKind h.stmForm fun kind => by
      cases kind <;> simp [Reader.stmForm]
  case stms =>
    intro r
    refine follows_peek_bind ?_
    split
    · next hopen =>
      refine (h.stm.first fun _ => h.stms.bind fun _ => follows_pure).unroll
        (fun _ => by simp) fun hsort => ?_
      cases hopen.symm.trans hsort
      rfl
    · exact follows_pure
  case exp =>
    intro r
    refine follows_peek_bind ?_
    split
    · next hnext =>
      refine follows_atom_bind fun hrest => .inl ⟨[], ?_, follows_pure⟩
      rw [hrest] at hnext
      cases hnext
      rfl
    · next text hfp hnext =>
      refine (follows_integer fun {text'} _ _ hrest => ?_).bind fun _ => follows_pure
      rw [hrest] at hnext
      cases hnext
      -- An atom here that is not the frame pointer has to be a numeral.
      have hleaf : Expected.isLeaf text = (Word.ofNumeral? text).isSome := by
        rw [Expected.isLeaf, decide_eq_false hfp, Bool.false_or]
      show (if Expected.isLeaf text = true then _ else _) = _
      rw [hleaf]
      cases Word.ofNumeral? text <;> rfl
    · exact follows_headed (Reader.expForm fuel) rfl follows_expKind h.expForm fun kind => by
        cases kind <;> simp [Reader.expForm]
  case exps =>
    intro r
    refine follows_peek_bind ?_
    split
    · exact follows_pure
    · exact follows_pure
    · next sort hsort hnext =>
      refine (h.exp.first fun _ => h.exps.bind fun _ => follows_pure).unroll
        (fun _ => by simp) fun hsort' => ?_
      cases hnext.symm.trans hsort'
      cases sort with
      | opening => rfl
      | closing => exact absurd rfl hsort
      | atom text =>
        show (if _ then _ else _) = Option.map _ (if _ then _ else _)
        split <;> rfl

end FollowsTrees

/-- **Trees are read as expected**, with any fuel. -/
theorem followsTrees (fuel : Nat) : FollowsTrees fuel := by
  induction fuel with
  | zero => exact .zero
  | succ fuel ih => exact ih.succ

/-! ## Whole texts -/

variable {r : Reader}

/-- A complaint ends the reading. -/
theorem Complains.bind {α β : Type} {act : ReadM α} {f : α → ReadM β} {text : String}
    {p : Position} (h : Complains act r text p) : Complains (act >>= f) r text p := by
  constructor
  · intro b r' hyields
    obtain ⟨a, u, ha, -⟩ := yields_bind.mp hyields
    exact h.not_yields ha
  · intro position fault hfails
    obtain hfails | ⟨a, u, ha, -⟩ := failsWith_bind.mp hfails
    · exact h.fails hfails
    · exact absurd ha h.not_yields

/-- **Methods are read as expected.** -/
theorem follows_method (fuel : Nat) : Follows (method fuel) r [.method] fun _ => [] := by
  refine (follows_opening rfl).bind fun _ => follows_atom_bind fun {text p tail} _ => ?_
  dsimp only
  by_cases htext : text = "method"
  · rw [if_neg (not_not_intro htext)]
    refine .inl ⟨_, if_pos htext, follows_name_bind ?_⟩
    refine (follows_of_quiet (fun h => ?_) fun h => ?_).bind fun _ =>
      (followsTrees fuel).stm.first fun _ =>
        (follows_closing rfl).bind fun _ => follows_get_bind follows_pure
    · cases yields_modify.mp h
      exact ⟨rfl, rfl⟩
    · exact absurd h not_failsWith_modify
  · rw [if_pos htext]
    exact .inr ⟨if_neg htext, (complains_failAt rfl rfl).bind⟩

/-- **So are all methods of a text.** -/
theorem follows_methods (fuel : Nat) : Follows (methods fuel) r [.methods] fun _ => [.methods] := by
  induction fuel generalizing r with
  | zero => exact follows_pure
  | succ fuel ih =>
    refine follows_get_bind ?_
    split
    · exact follows_pure
    · refine ((follows_method fuel).first fun _ => ih.bind fun _ =>
        follows_pure).unroll (fun _ => by simp) fun {sort} _ => ?_
      cases sort <;> rfl

theorem follows_wholeStm (fuel : Nat) : Follows (wholeStm fuel) r [.stm] fun _ => [] := by
  refine (followsTrees fuel).stm.bind fun {_ r'} _ => follows_get_bind ?_
  have htrailing : Follows (fail .trailingInput : ReadM Unit) r' [] fun _ => [] := follows_fail rfl
  split
  · exact follows_get_bind follows_pure
  · exact htrailing.bind fun h => absurd h not_yields_fail

theorem failsWith_overText {α : Type} {read : Nat → ReadM α} {text : String} {s : Session}
    {e : Error} : FailsWith (overText read text) s e ↔
      FailsWith (read ((tokens text).length + 2)) (ofText text s) e :=
  Iff.rfl

end Reader

/-! ## Where a text breaks off -/

/-- A text **breaks off** at the atom `a`: what stands before it can be continued to what is
expected, and with the atom it cannot. -/
structure BreaksAt (x : Expected) (text before a : String) (rest : List Token) : Prop where
  text_eq : ∃ after, text = before ++ a ++ after
  tokens_eq : tokens text = tokens before ++ ⟨.atom a, .following before.toList⟩ :: rest
  viable : ∃ more, x.Admits ((tokens before).map Token.sort ++ more)
  broken : ¬ ∃ more, x.Admits ((tokens before).map Token.sort ++ .atom a :: more)

/-- Where a fault is reported, if the atom it quotes stands at the place and is followed by these
tokens. -/
def reportedAt (fault : SyntaxFault) (place : Position) (rest : List Token) : Position :=
  if isLate fault then (rest.head?.map Token.position).getD place else place

section BreaksAt

variable {x : Expected} {text before before' a a' : String} {rest rest' : List Token}

/-- A text does not break off twice: what stands before the second atom goes through the first. -/
theorem BreaksAt.length_le (h : BreaksAt x text before a rest)
    (h' : BreaksAt x text before' a' rest') :
    (tokens before').length ≤ (tokens before).length := by
  by_contra! hlt
  have heq := h.tokens_eq.symm.trans h'.tokens_eq
  obtain ⟨between, hbetween, hrest⟩ | ⟨between, hbetween, hrest⟩ := append_eq_append_iff.mp heq
  · cases between with
    | nil => simp [hbetween] at hlt
    | cons first between =>
      -- The first atom is one of the tokens before the second.
      obtain ⟨rfl, -⟩ := List.cons.inj hrest
      obtain ⟨more, hmore⟩ := h'.viable
      refine h.broken ⟨between.map Token.sort ++ more, ?_⟩
      simpa [hbetween] using hmore
  · simp [hbetween] at hlt

/-- **A text breaks off at one place.** -/
theorem BreaksAt.unique (h : BreaksAt x text before a rest)
    (h' : BreaksAt x text before' a' rest') : a = a' ∧ rest = rest' ∧
      Position.following before.toList = Position.following before'.toList := by
  have heq := h.tokens_eq.symm.trans h'.tokens_eq
  have hlength := Nat.le_antisymm (h'.length_le h) (h.length_le h')
  obtain ⟨-, heq⟩ := append_inj heq hlength
  obtain ⟨htoken, hrest⟩ := List.cons.inj heq
  obtain ⟨hatom, hplace⟩ := Token.mk.inj htoken
  exact ⟨Token.Sort.atom.inj hatom, hrest, hplace⟩

/-- The place of the atom is reported, unless the fault is late and there is a next token. -/
theorem BreaksAt.reportedAt_eq_iff (h : BreaksAt x text before a rest) (fault : SyntaxFault) :
    reportedAt fault (.following before.toList) rest = .following before.toList ↔
      isLate fault = false ∨ rest = [] := by
  cases hlate : isLate fault with
  | false => simp [reportedAt, hlate]
  | true =>
    cases rest with
    | nil => simp [reportedAt]
    | cons next rest => simpa [reportedAt, hlate] using place_ne_of_next h.tokens_eq

/-- No row goes on with an atom that the agenda does not get past. -/
theorem not_exists_admits {row : List Token.Sort}
    (h : Expected.remaining [x] (row ++ [.atom a]) = none) :
    ¬ ∃ more, x.Admits (row ++ .atom a :: more) := by
  rintro ⟨more, hmore⟩
  have hsome : (Expected.remaining [x] (row ++ [.atom a])).isSome = true :=
    Expected.exists_admits_append_iff.mp ⟨more, by simpa using hmore⟩
  rw [h] at hsome
  cases hsome

/-- What is blamed in a text is where it breaks off. -/
theorem Reader.Blames.exists_breaksAt {session : Session} {position : Position}
    {fault : SyntaxFault} (h : (ofText text session).Blames [x] position fault a) :
    ∃ before rest, BreaksAt x text before a rest ∧
      position = reportedAt fault (.following before.toList) rest := by
  obtain ⟨taken, p, rest, hrest, hposition, hstuck⟩ := h
  have htokens : tokens text = taken ++ ⟨.atom a, p⟩ :: rest := hrest
  obtain ⟨pre, post, htext, htaken, hplace⟩ := exists_place htokens
  obtain ⟨hviable, hbroken⟩ := hstuck []
  have hpre : (String.ofList pre).toList = pre := String.toList_ofList
  refine ⟨String.ofList pre, rest, ⟨⟨String.ofList post, ?_⟩, ?_, ?_, ?_⟩, ?_⟩
  · apply String.toList_injective
    simpa [Token.Sort.chars] using htext
  · rw [htaken, hpre, ← hplace, htokens]
  · rw [htaken]
    exact Expected.exists_admits_append_iff.mpr hviable
  · rw [htaken]
    exact not_exists_admits hbroken
  · rw [hposition, hpre, ← hplace, reportedAt]
    cases rest with
    | nil => simp [Reader.place, ofText, htokens]
    | cons next rest => rfl

end BreaksAt

/-- **Faults that quote an atom** are about the atom where the text breaks off, and it breaks off at
no other. They are reported at its place, unless the atom is a relation or an operator that a token
follows; then they are reported at that token. -/
theorem quoted_atom_place {text : String} {s : Session} {position : Position}
    {fault : SyntaxFault} {a : String} (hquoted : quoted? fault = some a) :
    (FailsWith (readStm text) s (.parse position fault) →
      ∃ before rest, BreaksAt .stm text before a rest ∧
        position = reportedAt fault (.following before.toList) rest ∧
        (position = .following before.toList ↔ isLate fault = false ∨ rest = []) ∧
        ∀ before' a' rest', BreaksAt .stm text before' a' rest' → a = a' ∧ rest = rest' ∧
          Position.following before.toList = .following before'.toList) ∧
    (FailsWith (readMethods text) s (.parse position fault) →
      ∃ before rest, BreaksAt .methods text before a rest ∧
        position = reportedAt fault (.following before.toList) rest ∧
        (position = .following before.toList ↔ isLate fault = false ∨ rest = []) ∧
        ∀ before' a' rest', BreaksAt .methods text before' a' rest' → a = a' ∧ rest = rest' ∧
          Position.following before.toList = .following before'.toList) := by
  constructor
  · intro hfails
    obtain ⟨before, rest, hbreaks, rfl⟩ := ((Reader.follows_wholeStm _).fails
      (Reader.failsWith_overText.mp hfails) hquoted).exists_breaksAt
    exact ⟨before, rest, hbreaks, rfl, hbreaks.reportedAt_eq_iff fault, fun _ _ _ => hbreaks.unique⟩
  · intro hfails
    obtain ⟨before, rest, hbreaks, rfl⟩ := ((Reader.follows_methods _).fails
      (Reader.failsWith_overText.mp hfails) hquoted).exists_breaksAt
    exact ⟨before, rest, hbreaks, rfl, hbreaks.reportedAt_eq_iff fault, fun _ _ _ => hbreaks.unique⟩

theorem quoted_atom_place_misspelt :
    (∃ before rest, BreaksAt .stm "(exp (foo 1))" before "foo" rest ∧
      Position.following before.toList = ⟨1, 7⟩) ∧
    ∃ before rest, BreaksAt .methods "; one\n(function f)" before "function" rest ∧
      Position.following before.toList = ⟨2, 2⟩ := by
  have hfoo : quoted? (.unknownExpression "foo") = some "foo" := rfl
  have hfunction : quoted? (.expectedMethod "function") = some "function" := rfl
  constructor
  · have hfails : FailsWith (readStm "(exp (foo 1))") {}
        (.parse ⟨1, 7⟩ (.unknownExpression "foo")) := by decide +kernel
    obtain ⟨before, rest, hbreaks, -, hplace, -⟩ := (quoted_atom_place hfoo).1 hfails
    exact ⟨before, rest, hbreaks, (hplace.mpr (.inl rfl)).symm⟩
  · have hfails : FailsWith (readMethods "; one\n(function f)") {}
        (.parse ⟨2, 2⟩ (.expectedMethod "function")) := by decide +kernel
    obtain ⟨before, rest, hbreaks, -, hplace, -⟩ := (quoted_atom_place hfunction).2 hfails
    exact ⟨before, rest, hbreaks, (hplace.mpr (.inl rfl)).symm⟩

/-- A branch whose relation is misspelt. -/
def misspeltBranch : String := "(cjump under (temp a) 1 end)"

/-- The relation is at fault in column 8, and column 14 is reported. -/
theorem misplaced_misspeltBranch :
    FailsWith (readStm misspeltBranch) {} (.parse ⟨1, 14⟩ (.unknownRelation "under")) ∧
      ∃ rest, BreaksAt .stm misspeltBranch "(cjump " "under" rest ∧
        Position.following "(cjump ".toList = ⟨1, 8⟩ := by
  refine ⟨by decide +kernel, (tokens misspeltBranch).drop 3, ⟨⟨" (temp a) 1 end)", by decide⟩, ?_,
    Expected.exists_admits_append_iff.mpr ?_, not_exists_admits ?_⟩, ?_⟩ <;> decide +kernel

end Text

end TreeBackend
