import TreeBackend.Proofs.SoundLowering

/-!
# What lowered methods do

The tree of a lowered method is sound, so it has code, and the code places each
label once. The code of the body runs as the body does. With the move of the
result at its end, this is what a lowered method does
(`MethodTree.lowering_preserves_runs`).
-/

namespace TreeBackend

open List Program

variable {a b a' b' : Session} {m : MethodDecl} {x : BitVec 64}

/-- The linear code of the statement's canonical form, as it is drawn from a
session. -/
def Stm.HasCode (stm : Stm) (session : Session) (code : List Stm) : Prop :=
  ∃ canonical session', Yields stm.canonicalize session canonical session' ∧
    canonical.linearize = .ok code

namespace MethodTree

/-- A sound tree has code, in which every label is placed once. -/
theorem Sound.exists_code {tree : MethodTree} (h : tree.Sound a) (session : Session) :
    ∃ code session', tree.body.toStm.HasCode session code ∧ (Body.labels code).Nodup ∧
      Stm.Renders [tree.body.toStm] session code session' := by
  obtain ⟨canonical, session', hcanonical⟩ := h.exists_canonicalize session
  have hrenders : Stm.Renders [tree.body.toStm] session canonical.linear session' :=
    Stm.renders_singleton.mpr ⟨canonical, hcanonical, rfl⟩
  have hform := (tree.body.toStm.hasForm hcanonical).canonical
  exact ⟨canonical.linear, session', ⟨canonical, session', hcanonical,
    Stm.linearize_of_isCanonical hform⟩, hrenders.nodup_labels h.once, hrenders⟩

variable {M : Type} {env : Surroundings M} {s : Scope} {w w' : World (BitVec 64) M}

/-- **A body and the move of a result** after it run as the method does. -/
theorem result_runs (hlength : m.usesLength = false) {u : Session}
    (hdrawn : s.frame.Drawn a.tempCount) {stms : List Stm}
    (hstms : Yields (Stmt.lowerAll s m.body) a stms u) {t : Exp}
    (ht : Yields (lowerValue (m.result.lower s)) u t b) {code : List Stm}
    (hcode : Stm.Renders (stms ++ [.move (.temp s.frame.result) t]) a' code b')
    (hnodup : (Body.labels code).Nodup) (hexec : m.Exec env s w x w') :
    ∃ u', Body.Ends env.host code w none u' ∧ w'.Agree (· ∈ s.frame.registerFormals) u' ∧
      u'.temps s.frame.result = x := by
  rw [MethodDecl.usesLength, Bool.or_eq_false_iff] at hlength
  obtain ⟨w₁, hbody, o, hresult, rfl⟩ := hexec
  have hunder : s.Under a.tempCount := hdrawn.under
  have hunder' := hunder.mono (Stmt.allDraws s _ hstms).temps
  obtain ⟨code₁, v, _, hcode₁, hmove, rfl⟩ := Stm.renders_append.mp hcode
  obtain ⟨c, hc, rfl⟩ := Stm.renders_singleton.mp hmove
  obtain ⟨u₁, hends₁, hagree₁⟩ := hbody.runs hlength.1 (yields_lower_block.mpr ⟨stms, hstms, rfl⟩)
    hunder (Stm.renders_seqAll.mpr hcode₁) (.refl w)
  have hknows := hunder'.knows w₁.temps
  have ht' := m.result.value_means env hlength.2 hknows ht
  rw [← hagree₁.outside] at hresult
  obtain ⟨u₂, hends₂, hkept, ho⟩ := ht'.move_temp ((m.result.draws s).value ht).nodup hc hresult
    hagree₁.temps
  have hagree₂ := hunder'.agree hagree₁ hkept ho
  refine ⟨_, hends₁.append hends₂ hnodup (by simp), ?_, Function.update_self ..⟩
  exact (hagree₂.imp fun _ => .inr).set_of_not hdrawn.result_notMem x

/-- **Lowering preserves what methods do.** Take a method, or the body of a main
method, that does not ask for the length of an array, and that is lowered
successfully. Its tree has linear code, and for every run of the method there is
a run of the code from the same world that makes the same calls in the same
order, and ends with the same memory, the same content of the formals that
travel in registers and, for a method, its result in the temp for it. -/
theorem lowering_preserves_runs (env : Surroundings M) (table : ClassTable) (arrays : ArrayLayout)
    {a b : Session} {tree : MethodTree} :
    (∀ {c : ClassDecl} {m : MethodDecl}, Yields (ofMethod c m table arrays) a tree b →
      m.usesLength = false → ∃ info, table.find c.name = .ok info ∧
        ∀ session, ∃ code, tree.body.toStm.HasCode session code ∧ ∀ {w x w'},
          m.Exec env (tree.scope (some info) table arrays) w x w' →
            ∃ u, Body.Ends env.host code w none u ∧
              w'.Agree (· ∈ tree.frame.registerFormals) u ∧ u.temps tree.frame.result = x) ∧
    (∀ {program : Program}, Yields (ofMain program table arrays) a tree b →
      Stmt.anyUsesLength program.mainBody = false →
        ∀ session, ∃ code, tree.body.toStm.HasCode session code ∧ ∀ {w w'},
          Stmt.Exec env (tree.scope none table arrays) (.block program.mainBody) w w' →
            ∃ u, Body.Ends env.host code w none u ∧
              w'.Agree (· ∈ tree.frame.registerFormals) u) := by
  constructor
  · intro c m h hlength
    obtain ⟨info, u, stms, v, t, hinfo, hframe, hstms, ht, hbody⟩ := of_ofMethod h
    have hdrawn := Frame.drawn_methodFrame hframe
    refine ⟨info, hinfo, fun session => ?_⟩
    obtain ⟨code, session', hcode, hnodup, hrenders⟩ := (sound_ofMethod h).exists_code session
    rw [hbody, Stm.renders_seqAll] at hrenders
    exact ⟨code, hcode, fun hexec => result_runs hlength hdrawn hstms ht hrenders hnodup hexec⟩
  · intro program h hlength session
    obtain ⟨u, hframe, hbody⟩ := of_ofMain h
    have hdrawn := Frame.drawn_new hframe
    obtain ⟨code, session', hcode, -, hrenders⟩ := (sound_ofMain h).exists_code session
    refine ⟨code, hcode, fun {w w'} hexec => ?_⟩
    obtain ⟨u', hends, hagree⟩ := hexec.runs hlength hbody (Frame.Drawn.under hdrawn) hrenders
      (.refl w)
    exact ⟨u', hends, hagree.imp fun _ => .inr⟩

/-- A method that adds up the numbers from `n` down to 1 in a field, as long as
another method of the receiver agrees. -/
def summing : MethodDecl where
  name := "sum"
  params := ["n"]
  locals := []
  body := [.while
      (.binary .and (.binary .lt (.int 0) (.ident "n")) (.call .this "Sum" "more" [.ident "n"]))
      (.block [.assign "total" (.binary .add (.ident "total") (.ident "n")),
          .assign "n" (.binary .sub (.ident "n") (.int 1))])]
  result := .ident "total"

/-- The class of that method. -/
def summingClass : ClassInfo where
  name := "Sum"
  parent? := none
  layout := {
    vtable := ⟨"Sum@vtable"⟩
    fields := ["total"]
    methods := ["more", "sum"]
    wordSize := 4 }

/-- A main method that prints what an object of the class answers. -/
def summingMain : Program where
  mainName := "Main"
  mainBody := [.print (.call (.newObject "Sum") "Sum" "sum" [.int 1])]
  classes := []

/-- Surroundings in which every call is answered with 1. -/
def agreeable : Surroundings (BitVec 64 → BitVec 64) where
  address _ := 0
  load memory address := memory address
  store := Function.update
  answer _ memory _ _ := (1, memory)
  litter _ := 0
  arriving _ := 0
  modZero x := x

/-- A world in which `n` is 1 and all memory is clear. -/
def beforeSumming : World (BitVec 64) (BitVec 64 → BitVec 64) where
  temps t := if t = ⟨9, .plain "n"⟩ then 1 else 0
  memory _ := 0
  calls := []

theorem lowering_preserves_runs_summing :
    (∃ tree b w', Yields (ofMethod ⟨"Sum", none, ["total"], [summing]⟩ summing ⟨[summingClass]⟩ ⟨4⟩)
        {} tree b ∧ summing.usesLength = false ∧
      summing.Exec agreeable (tree.scope (some summingClass) ⟨[summingClass]⟩ ⟨4⟩) beforeSumming 1
        w' ∧
      ∃ code u, tree.body.toStm.HasCode b code ∧
        Body.Ends agreeable.host code beforeSumming none u ∧
        w'.Agree (· ∈ tree.frame.registerFormals) u ∧ u.temps tree.frame.result = 1) ∧
    ∃ tree b w', Yields (ofMain summingMain ⟨[summingClass]⟩ ⟨4⟩) {} tree b ∧
      Stmt.anyUsesLength summingMain.mainBody = false ∧
      Stmt.Exec agreeable (tree.scope none ⟨[summingClass]⟩ ⟨4⟩) (.block summingMain.mainBody)
        beforeSumming w' ∧ w'.calls.length = 3 ∧
      ∃ code u, tree.body.toStm.HasCode b code ∧
        Body.Ends agreeable.host code beforeSumming none u ∧
        w'.Agree (· ∈ tree.frame.registerFormals) u := by
  constructor
  · obtain ⟨tree, b, htree⟩ : ∃ tree b, Yields (ofMethod ⟨"Sum", none, ["total"], [summing]⟩ summing
        ⟨[summingClass]⟩ ⟨4⟩) {} tree b := exists_yields_of_isOk (by decide +kernel)
    have hframe : tree.frame = ⟨"Sum@sum", 4, 4, ⟨7, .plain "ret"⟩,
        [("this", .register ⟨8, .plain "this"⟩), ("n", .register ⟨9, .plain "n"⟩),
          ("@exit", .register ⟨10, .plain "@exit"⟩)], [], 0, 0⟩ := by
      obtain ⟨_, u, _, _, _, -, hframe, -⟩ := of_ofMethod htree
      exact (congrArg Prod.fst hframe).symm
    have hrun : ∃ w', summing.Exec agreeable (tree.scope (some summingClass) ⟨[summingClass]⟩ ⟨4⟩)
        beforeSumming 1 w' := by
      rw [scope, hframe]
      exact ⟨_, _, .cons (.whileTrue ⟨_, rfl, rfl⟩ (.cons (.assign ⟨_, rfl, rfl⟩ ⟨_, rfl, rfl⟩)
        (.cons (.assign ⟨_, rfl, rfl⟩ ⟨_, rfl, rfl⟩) (.nil _))) (.whileFalse ⟨_, rfl, rfl⟩))
        (.nil _), ⟨_, rfl, rfl⟩⟩
    obtain ⟨w', hrun⟩ := hrun
    obtain ⟨info, hinfo, hcode⟩ :=
      (lowering_preserves_runs agreeable ⟨[summingClass]⟩ ⟨4⟩).1 htree rfl
    obtain rfl : summingClass = info := Except.ok.inj hinfo
    obtain ⟨code, hcode, hends⟩ := hcode b
    obtain ⟨u, hu⟩ := hends hrun
    exact ⟨tree, b, w', htree, rfl, hrun, code, u, hcode, hu⟩
  · obtain ⟨tree, b, htree⟩ : ∃ tree b, Yields (ofMain summingMain ⟨[summingClass]⟩ ⟨4⟩) {} tree
        b := exists_yields_of_isOk (by decide +kernel)
    have hframe : tree.frame = ⟨"Main@MAIN", 4, 4, ⟨7, .plain "ret"⟩, [], [], 0, 0⟩ := by
      obtain ⟨u, hframe, -⟩ := of_ofMain htree
      exact (congrArg Prod.fst hframe).symm
    have hrun : ∃ w', Stmt.Exec agreeable (tree.scope none ⟨[summingClass]⟩ ⟨4⟩)
        (.block summingMain.mainBody) beforeSumming w' ∧ w'.calls.length = 3 := by
      rw [scope, hframe]
      exact ⟨_, .cons (.print ⟨_, rfl, rfl⟩ ⟨_, rfl, rfl⟩) (.nil _), rfl⟩
    obtain ⟨w', hrun, hcalls⟩ := hrun
    obtain ⟨code, hcode, hends⟩ :=
      (lowering_preserves_runs agreeable ⟨[summingClass]⟩ ⟨4⟩).2 htree rfl b
    obtain ⟨u, hu⟩ := hends hrun
    exact ⟨tree, b, w', htree, rfl, hrun, hcalls, code, u, hcode, hu⟩

end MethodTree

end TreeBackend
