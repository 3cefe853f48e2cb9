import TreeBackend.Proofs.Grammar
import TreeBackend.Proofs.Lockstep
import TreeBackend.Proofs.TreeRenaming

/-!
# Reading a text twice

Two readers at the same place of a text, whose tables give the same names to temps
that correspond, read the same tree: the second one reads the first one's with its
temps renamed. Labels are their names, so the trees do not differ in them; what labels
the sessions know is not looked at.
-/

namespace TreeBackend.Text

/-- The method with its temps renamed. -/
def MethodText.mapTemps (ρ : Temp → Temp) (m : MethodText) : MethodText where
  name := m.name
  body := m.body.mapTemps ρ
  temps := m.temps.map (Prod.map id ρ)

variable {ρ : Temp.Renaming} {known : List Label}

theorem lookup_map (table : List (String × Temp)) (name : String) :
    (table.map (Prod.map id ρ)).lookup name = (table.lookup name).map ρ := by
  induction table with
  | nil => rfl
  | cons entry table ih =>
    obtain ⟨n, t⟩ := entry
    rw [List.map_cons, Prod.map_apply, List.lookup_cons, List.lookup_cons, ih, id_eq]
    split
    · rfl
    · rfl

theorem MethodText.temp?_mapTemps (m : MethodText) (name : String) :
    (m.mapTemps ρ).temp? name = (m.temp? name).map ρ := lookup_map m.temps name

namespace Reader

/-- The second reader stands where the first one does and knows its names. -/
structure Mirrors (ρ : Temp.Renaming) (known : List Label) (r q : Reader) : Prop where
  rest : q.rest = r.rest
  last : q.last = r.last
  temps : q.temps = r.temps.map (Prod.map id ρ)
  session : r.session.Mirrors ρ known q.session

/-! ## Tokens -/

theorem lockstep_fail {α β : Type} (R : α → β → Prop) (fault : SyntaxFault) :
    Lockstep (Mirrors ρ known) R (fail fault) (fail fault) :=
  Lockstep.bind .get fun _ _ _ => .throw _ _

theorem lockstep_inSession {α β : Type} {R : α → β → Prop} {x : SessionM α} {y : SessionM β}
    (h : InStep (Session.Mirrors ρ known) R x y) :
    Lockstep (Mirrors ρ known) R (inSession x) (inSession y) := by
  intro r q hrq
  obtain ⟨hab, hsession⟩ := h r.session q.session hrq.session
  exact .inl ⟨_, _, _, _, rfl, rfl, hab, hrq.rest, hrq.last, hrq.temps, hsession⟩

theorem lockstep_skip (rest : List Token) :
    Lockstep (Mirrors ρ known) (fun _ _ => True) (modify fun r => { r with rest } : ReadM PUnit)
      (modify fun r => { r with rest }) :=
  .modify fun _ _ h => ⟨rfl, h.last, h.temps, h.session⟩

theorem lockstep_peek? : Lockstep (Mirrors ρ known) (fun a b => b = a) peek? peek? :=
  Lockstep.map .get fun _ _ h => by rw [h.rest]

theorem lockstep_opening : Lockstep (Mirrors ρ known) (fun _ _ => True) opening opening := by
  refine Lockstep.bind .get fun r q h => ?_
  rw [h.rest]
  split
  · exact lockstep_skip _
  · exact lockstep_fail _ _

theorem lockstep_closing : Lockstep (Mirrors ρ known) (fun _ _ => True) closing closing := by
  refine Lockstep.bind .get fun r q h => ?_
  rw [h.rest]
  split
  · exact lockstep_skip _
  · exact lockstep_fail _ _

theorem lockstep_atom : Lockstep (Mirrors ρ known) (fun a b => b = a) atom atom := by
  refine Lockstep.bind .get fun r q h => ?_
  rw [h.rest]
  split
  · exact (lockstep_skip _).map fun _ _ _ => rfl
  · exact lockstep_fail _ _

theorem lockstep_integer : Lockstep (Mirrors ρ known) (fun a b => b = a) integer integer := by
  refine lockstep_atom.bind_eq fun entry => ?_
  dsimp only
  split
  · exact .pure rfl
  · exact .throw _ _

theorem lockstep_relation : Lockstep (Mirrors ρ known) (fun a b => b = a) relation relation := by
  refine lockstep_atom.bind_eq fun entry => ?_
  dsimp only
  split
  · exact .pure rfl
  · exact lockstep_fail _ _

theorem lockstep_operator : Lockstep (Mirrors ρ known) (fun a b => b = a) operator operator := by
  refine lockstep_atom.bind_eq fun entry => ?_
  dsimp only
  split
  · exact .pure rfl
  · exact lockstep_fail _ _

theorem lockstep_stmKind : Lockstep (Mirrors ρ known) (fun a b => b = a) stmKind stmKind := by
  refine lockstep_atom.bind_eq fun entry => ?_
  dsimp only
  split
  · exact .pure rfl
  · exact .throw _ _

theorem lockstep_expKind : Lockstep (Mirrors ρ known) (fun a b => b = a) expKind expKind := by
  refine lockstep_atom.bind_eq fun entry => ?_
  dsimp only
  split
  · exact .pure rfl
  · exact .throw _ _

theorem lockstep_label : Lockstep (Mirrors ρ known) (fun a b => b = a) label label :=
  lockstep_atom.bind_eq fun _ => lockstep_inSession (Session.inStep_namedLabel _)

/-- A name that both tables have means temps that correspond, and for a new name
corresponding temps are drawn. -/
theorem lockstep_temp (name : String) :
    Lockstep (Mirrors ρ known) (fun a b => b = ρ a) (temp name) (temp name) := by
  unfold temp
  split
  · exact .pure ρ.apply_framePointer.symm
  · refine Lockstep.bind .get fun r q h => ?_
    rw [h.temps, lookup_map]
    cases r.temps.lookup name with
    | some t => exact .pure rfl
    | none =>
      refine (lockstep_inSession (Session.inStep_drawTemp _)).bind_eq fun t => ?_
      refine Lockstep.map (.modify fun r q h => ⟨h.rest, h.last, ?_, h.session⟩) fun _ _ _ => rfl
      rw [h.temps, List.map_append]
      rfl

/-! ## Trees -/

/-- Trees are read by recursion on the fuel, statements and expressions at once. -/
theorem lockstep_trees (fuel : Nat) :
    Lockstep (Mirrors ρ known) (fun s s' => s' = s.mapTemps ρ) (stm fuel) (stm fuel) ∧
    Lockstep (Mirrors ρ known) (fun s s' => s' = s.map (Stm.mapTemps ρ)) (stms fuel) (stms fuel) ∧
    Lockstep (Mirrors ρ known) (fun e e' => e' = e.mapTemps ρ) (exp fuel) (exp fuel) ∧
    Lockstep (Mirrors ρ known) (fun e e' => e' = Exp.mapTempsAll ρ e) (exps fuel) (exps fuel) := by
  induction fuel with
  | zero => exact ⟨lockstep_fail _ _, .pure rfl, lockstep_fail _ _, .pure rfl⟩
  | succ fuel ih =>
    obtain ⟨hstm, hstms, hexp, hexps⟩ := ih
    have hclose {α : Type} {R : α → α → Prop} {a b : α} (h : R a b) :
        Lockstep (Mirrors ρ known) R (do closing; return a) (do closing; return b) :=
      lockstep_closing.map fun _ _ _ => h
    refine ⟨?_, ?_, ?_, ?_⟩
    · rw [stm]
      refine lockstep_opening.bind fun _ _ _ => lockstep_stmKind.bind_eq fun kind => ?_
      cases kind with
      | seq => exact hstms.bind_eq fun stms => hclose (Stm.mapTemps_seqAll stms).symm
      | move => exact hexp.bind_eq fun _ => hexp.bind_eq fun _ => hclose rfl
      | exp => exact hexp.bind_eq fun _ => hclose rfl
      | jump | label => exact lockstep_label.bind_eq fun _ => hclose rfl
      | cjump =>
        exact lockstep_relation.bind_eq fun _ => hexp.bind_eq fun _ => hexp.bind_eq fun _ =>
          lockstep_label.bind_eq fun _ => hclose rfl
    · rw [stms]
      refine lockstep_peek?.bind_eq fun next => ?_
      split
      · exact hstm.bind_eq fun _ => hstms.map fun _ _ h => h ▸ rfl
      · exact .pure rfl
    · rw [exp]
      refine lockstep_peek?.bind_eq fun next => ?_
      split
      · exact lockstep_atom.map fun _ _ _ => congrArg Exp.temp ρ.apply_framePointer.symm
      · exact lockstep_integer.map fun _ _ h => h ▸ rfl
      · refine lockstep_opening.bind fun _ _ _ => lockstep_expKind.bind_eq fun kind => ?_
        cases kind with
        | const => exact lockstep_integer.bind_eq fun _ => hclose rfl
        | name => exact lockstep_label.bind_eq fun _ => hclose rfl
        | temp => exact lockstep_atom.bind_eq fun _ => (lockstep_temp _).bind_eq fun _ => hclose rfl
        | binop =>
          exact lockstep_operator.bind_eq fun _ => hexp.bind_eq fun _ => hexp.bind_eq fun _ =>
            hclose rfl
        | not | mem => exact hexp.bind_eq fun _ => hclose rfl
        | call => exact hexp.bind_eq fun _ => hexps.bind_eq fun _ => hclose rfl
        | eseq => exact hstm.bind_eq fun _ => hexp.bind_eq fun _ => hclose rfl
    · rw [exps]
      refine lockstep_peek?.bind_eq fun next => ?_
      split
      · exact .pure rfl
      · exact .pure rfl
      · exact hexp.bind_eq fun _ => hexps.map fun _ _ h => h ▸ rfl

theorem lockstep_method (fuel : Nat) :
    Lockstep (Mirrors ρ known) (fun m m' => m' = m.mapTemps ρ) (method fuel) (method fuel) := by
  have hbody (name : String) : Lockstep (Mirrors ρ known) (fun m m' => m' = m.mapTemps ρ) (do
        modify fun r => { r with temps := [] }
        let body ← stm fuel
        closing
        return { name, body, temps := (← get).temps } : ReadM MethodText)
      (do
        modify fun r => { r with temps := [] }
        let body ← stm fuel
        closing
        return { name, body, temps := (← get).temps }) := by
    refine Lockstep.bind (.modify fun r q h => ⟨h.rest, h.last, rfl, h.session⟩) fun _ _ _ => ?_
    refine (lockstep_trees fuel).1.bind_eq fun body => lockstep_closing.bind fun _ _ _ => ?_
    refine Lockstep.map .get fun r q h => ?_
    rw [MethodText.mapTemps, h.temps]
  refine lockstep_opening.bind fun _ _ _ => lockstep_atom.bind_eq fun (keyword, p) => ?_
  dsimp only
  split
  · exact Lockstep.bind (R := fun _ _ => True) (.throw _ _) fun _ _ _ =>
      lockstep_atom.bind_eq fun entry => hbody entry.1
  · exact lockstep_atom.bind_eq fun entry => hbody entry.1

theorem lockstep_methods (fuel : Nat) :
    Lockstep (Mirrors ρ known) (fun m m' => m' = m.map (MethodText.mapTemps ρ)) (methods fuel)
      (methods fuel) := by
  induction fuel with
  | zero => exact .pure rfl
  | succ fuel ih =>
    refine Lockstep.bind .get fun r q h => ?_
    rw [h.rest]
    split
    · exact .pure rfl
    · exact (lockstep_method fuel).bind_eq fun _ => ih.map fun _ _ h => h ▸ rfl

theorem lockstep_overText {α : Type} {R : α → α → Prop} {read : Nat → ReadM α}
    (h : ∀ fuel, Lockstep (Mirrors ρ known) R (read fuel) (read fuel)) (text : String) :
    Lockstep (Session.Mirrors ρ known) R (overText read text) (overText read text) := by
  intro s t hst
  obtain ⟨a, r, b, q, ha, hb, hab, hrq⟩ | ⟨e, e', he, he'⟩ :=
    h ((tokens text).length + 2) (ofText text s) (ofText text t) ⟨rfl, rfl, rfl, hst⟩
  · exact .inl ⟨a, r.session, b, q.session, yields_overText.mpr ⟨r, ha, rfl⟩,
      yields_overText.mpr ⟨q, hb, rfl⟩, hab, hrq.session⟩
  · exact .inr ⟨e, e', he, he'⟩

end Reader

/-- **A text is read alike** in a session and in one that mirrors it. -/
theorem lockstep_readMethods (text : String) :
    Lockstep (Session.Mirrors ρ known) (fun m m' => m' = m.map (MethodText.mapTemps ρ))
      (readMethods text) (readMethods text) :=
  Reader.lockstep_overText Reader.lockstep_methods text

end TreeBackend.Text
