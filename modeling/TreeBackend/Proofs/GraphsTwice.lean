import TreeBackend.Proofs.CodeTwice

/-!
# Live sets and colours of renamed code

Nothing that is found out about code depends on the numbers of its temps. Renamed code
has the same control flow and renamed live sets; its interference graph has the same
edges between nodes for the renamed temps. Colouring works on the numbers of nodes
alone, so the renamed temps get the colours of the temps, and the temps without a
colour are the renamed ones, in the same order.
-/

namespace TreeBackend

open List

variable {ρ : Temp.Renaming} {known : List Label}

/-! ## Control flow -/

/-- The node with other temps in it. -/
def FlowNode.mapTemps (ρ : Temp.Renaming) (node : FlowNode) : FlowNode :=
  { node with uses := .rename ρ node.uses, defs := .rename ρ node.defs }

namespace Flow

theorem labelIndex?_map (code : List Instruction) (l : Label) :
    labelIndex? (code.map (Instruction.mapTemps ρ)) l = labelIndex? code l := by
  rw [labelIndex?, List.findIdx?_map]
  rfl

theorem successors_map (code : List Instruction) (i : Instruction) (index : Nat) :
    successors (code.map (Instruction.mapTemps ρ)) (i.mapTemps ρ) index
      = successors code i index := by
  have htarget : addTarget (code.map (Instruction.mapTemps ρ)) = addTarget code := by
    funext succ target
    rw [addTarget, labelIndex?_map, addTarget]
  rw [successors, htarget, length_map]
  rfl

/-- The flow of renamed code is the renamed flow, or the same error. -/
theorem ofCode_map (code : List Instruction) :
    ofCode (code.map (Instruction.mapTemps ρ)) = (ofCode code).map (List.map (.mapTemps ρ)) := by
  have hlabels : (code.map (Instruction.mapTemps ρ)).filterMap Instruction.label?
      = code.filterMap Instruction.label? := by
    rw [filterMap_map]
    rfl
  have hsucc : (code.map (Instruction.mapTemps ρ)).zipIdx.mapM
      (fun entry => successors (code.map (Instruction.mapTemps ρ)) entry.1 entry.2)
      = code.zipIdx.mapM fun entry => successors code entry.1 entry.2 := by
    rw [zipIdx_map, mapM_map]
    exact congrArg (List.mapM · _) (funext fun entry => successors_map code entry.1 entry.2)
  unfold ofCode
  rw [hlabels, hsucc]
  split
  · rfl
  · cases code.zipIdx.mapM fun entry => successors code entry.1 entry.2 with
    | error e => rfl
    | ok succ =>
      refine congrArg Except.ok ?_
      rw [zip_map_left, zipIdx_map, map_map, map_map]
      refine map_congr_left fun entry _ => ?_
      simp only [Function.comp_apply, FlowNode.mapTemps, TempSet.rename_ofList]
      rfl

end Flow

/-! ## Live sets -/

namespace Liveness

/-- The live sets with other temps in them. -/
def mapTemps (ρ : Temp.Renaming) (l : Liveness) : Liveness := { l with
    flow := l.flow.map (.mapTemps ρ)
    liveIn := l.liveIn.map (.rename ρ)
    liveOut := l.liveOut.map (.rename ρ) }

/-- Live sets are renamed with the solution. -/
theorem before_mapTemps (l : Liveness) (index : Nat) :
    (l.mapTemps ρ).before index = .rename ρ (l.before index) := by
  simp only [before, mapTemps, Array.getD_eq_getD_getElem?, Array.getElem?_map]
  cases l.liveIn[index]? with
  | none | some => rfl

theorem after_mapTemps (l : Liveness) (index : Nat) :
    (l.mapTemps ρ).after index = .rename ρ (l.after index) := by
  simp only [after, mapTemps, Array.getD_eq_getD_getElem?, Array.getElem?_map]
  cases l.liveOut[index]? with
  | none | some => rfl

/-- What is live after a node is renamed with it. -/
theorem join_mapTemps (l : Liveness) (node : FlowNode) :
    (l.mapTemps ρ).join (node.mapTemps ρ) = .rename ρ (l.join node) := by
  have hfold (succ : List Nat) (out : TempSet) :
      succ.foldl (fun out s => out ∪ (l.mapTemps ρ).before s) (.rename ρ out)
        = .rename ρ (succ.foldl (fun out s => out ∪ l.before s) out) := by
    induction succ generalizing out with
    | nil => rfl
    | cons s succ ih => rw [foldl_cons, before_mapTemps, ← TempSet.rename_union, ih, foldl_cons]
  exact hfold node.succ ∅

theorem transfer_mapTemps (node : FlowNode) (out : TempSet) :
    transfer (node.mapTemps ρ) (.rename ρ out) = .rename ρ (transfer node out) := by
  rw [transfer, FlowNode.mapTemps, ← TempSet.rename_diff, ← TempSet.rename_union, transfer]

theorem agrees_mapTemps (l : Liveness) (node : FlowNode) (index : Nat) :
    (l.mapTemps ρ).agrees (node.mapTemps ρ) index = l.agrees node index := by
  have hbeq (a b : TempSet) : (TempSet.rename ρ a == TempSet.rename ρ b) = (a == b) := by
    rw [Bool.eq_iff_iff, beq_iff_eq, beq_iff_eq]
    exact ⟨TempSet.rename_injective, congrArg _⟩
  rw [agrees, join_mapTemps, after_mapTemps, before_mapTemps, transfer_mapTemps, hbeq, hbeq, agrees]

/-- One visit does the same, and asks for the same visits. -/
theorem visit_mapTemps (l : Liveness) (index : Nat) (queue : List Nat) :
    (l.mapTemps ρ).visit index queue
      = ((l.visit index queue).1.mapTemps ρ, (l.visit index queue).2) := by
  let counted : Liveness := { l with iterations := l.iterations + 1 }
  have hnode : (l.mapTemps ρ).flow[index]? = l.flow[index]?.map (.mapTemps ρ) := Array.getElem?_map
  unfold visit
  dsimp only
  rw [hnode]
  cases l.flow[index]? with
  | none => rfl
  | some node =>
    show (if (counted.mapTemps ρ).agrees (node.mapTemps ρ) index then _ else _) = _
    rw [agrees_mapTemps]
    dsimp only
    split
    · rfl
    · show (({ counted.mapTemps ρ with
          liveOut := (counted.mapTemps ρ).liveOut.setIfInBounds index
            ((counted.mapTemps ρ).join (node.mapTemps ρ))
          liveIn := (counted.mapTemps ρ).liveIn.setIfInBounds index
            (transfer (node.mapTemps ρ) ((counted.mapTemps ρ).join (node.mapTemps ρ))) }, _)
          : Liveness × List Nat) = _
      rw [join_mapTemps, transfer_mapTemps]
      simp only [mapTemps, Array.map_setIfInBounds]
      rfl

/-- **So do all visits.** -/
theorem run_mapTemps (fuel : Nat) (l : Liveness) (queue : List Nat) :
    run fuel (l.mapTemps ρ) queue = (run fuel l queue).mapTemps ρ := by
  induction fuel generalizing l queue with
  | zero => rfl
  | succ fuel ih =>
    cases queue with
    | nil => rfl
    | cons index queue =>
      rw [run, visit_mapTemps, run]
      exact ih _ _

theorem visitBound_map (flow : Array FlowNode) :
    visitBound (flow.map (.mapTemps ρ)) = visitBound flow := by
  have huses : (fun node : FlowNode => node.uses.size) ∘ .mapTemps ρ = fun node => node.uses.size :=
    funext fun node => TempSet.size_rename
  simp only [visitBound, Array.map_map, Array.size_map, huses]
  rfl

/-- **The live sets of renamed code** are the renamed live sets. -/
theorem solve_map (flow : Array FlowNode) :
    solve (flow.map (.mapTemps ρ)) = (solve flow).mapTemps ρ := by
  rw [solve, visitBound_map, Array.size_map, solve, ← run_mapTemps]
  simp only [mapTemps, Array.map_replicate]
  rfl

/-- **Live sets are found in step.** -/
theorem lockstep_analyze (code : List Instruction) :
    Lockstep (Session.Mirrors ρ known) (fun l l' => l' = l.mapTemps ρ) (analyze code)
      (analyze (code.map (Instruction.mapTemps ρ))) := by
  refine (Lockstep.liftExcept _ (Flow.ofCode_map code)).bind_eq fun flow => ?_
  refine (Lockstep.lift (Session.inStep_count _ _)).map fun _ _ _ => ?_
  rw [← map_toArray, solve_map]

end Liveness

/-! ## Interference graphs -/

/-- The node for another temp. -/
def InterferenceNode.mapTemps (ρ : Temp → Temp) (n : InterferenceNode) : InterferenceNode :=
  { n with temp := ρ n.temp }

namespace Interference

/-- The graph with other temps in its nodes. -/
def mapTemps (ρ : Temp → Temp) (g : Interference) : Interference := ⟨g.nodes.map (.mapTemps ρ)⟩

/-- A renamed temp has the node of the temp. -/
theorem index?_mapTemps (g : Interference) (t : Temp) :
    (g.mapTemps ρ).index? (ρ t) = g.index? t := by
  rw [index?, mapTemps, Array.findIdx?_map, index?]
  congr 1
  funext n
  exact decide_eq_decide.mpr ρ.eq_iff

theorem adjacent_mapTemps (g : Interference) (i : Nat) :
    (g.mapTemps ρ).adjacent i = g.adjacent i := by
  simp only [adjacent, mapTemps, Array.getElem?_map]
  cases g.nodes[i]? with
  | none | some => rfl

theorem precolored_mapTemps (g : Interference) (i : Nat) :
    (g.mapTemps ρ).precolored i = g.precolored i := by
  simp only [precolored, mapTemps, Array.getElem?_map]
  cases g.nodes[i]? with
  | none | some => rfl

/-- A fixed colour is kept by the renaming. -/
theorem newNode_apply (registers : Nat) (t : Temp) :
    newNode registers (ρ t) = (newNode registers t).mapTemps ρ := by
  rw [newNode, ρ.pinned?_apply, newNode]
  split
  · rfl
  · rfl

theorem ensure_mapTemps (registers : Nat) (g : Interference) (t : Temp) :
    ensure registers (g.mapTemps ρ) (ρ t) = (ensure registers g t).mapTemps ρ := by
  rw [ensure, ρ.isFramePointer_apply, index?_mapTemps, newNode_apply, ensure]
  split
  · rfl
  · rw [mapTemps, mapTemps, Array.map_push]

/-- A change to one node that leaves its temp alone. -/
theorem modify_mapTemps (nodes : Array InterferenceNode) (i : Nat)
    {change : InterferenceNode → InterferenceNode}
    (h : ∀ n, change (n.mapTemps ρ) = (change n).mapTemps ρ) :
    (nodes.map (.mapTemps ρ)).modify i change = (nodes.modify i change).map (.mapTemps ρ) := by
  refine Array.ext_getElem? fun j => ?_
  rw [Array.getElem?_modify, Array.getElem?_map, Array.getElem?_map, Array.getElem?_modify]
  split
  · cases nodes[j]? with
    | none => rfl
    | some n => exact congrArg some (h n)
  · rfl

theorem attach_mapTemps (g : Interference) (i j : Nat) :
    (g.mapTemps ρ).attach i j = (g.attach i j).mapTemps ρ :=
  congrArg mk (modify_mapTemps g.nodes i fun _ => rfl)

theorem attachMove_mapTemps (g : Interference) (i j : Nat) :
    (g.mapTemps ρ).attachMove i j = (g.attachMove i j).mapTemps ρ :=
  congrArg mk (modify_mapTemps g.nodes i fun _ => rfl)

/-- Edges are added in step. -/
theorem addEdge_mapTemps (g : Interference) (a b : Temp) :
    (g.mapTemps ρ).addEdge (ρ a) (ρ b) = (g.addEdge a b).mapTemps ρ := by
  rw [addEdge, index?_mapTemps, index?_mapTemps, addEdge]
  split
  · split
    · rfl
    · rw [attach_mapTemps, attach_mapTemps]
  · rfl

theorem addMove_mapTemps (g : Interference) (a b : Temp) :
    (g.mapTemps ρ).addMove (ρ a) (ρ b) = (g.addMove a b).mapTemps ρ := by
  rw [addMove, index?_mapTemps, index?_mapTemps, addMove]
  split
  · rw [precolored_mapTemps, precolored_mapTemps, adjacent_mapTemps]
    split
    · rfl
    · rw [attachMove_mapTemps, attachMove_mapTemps]
  · rfl

/-- Steps that follow a renaming one by one follow it together. -/
theorem foldl_mapTemps {α β : Type} {m : α → β} {step : Interference → α → Interference}
    {step' : Interference → β → Interference}
    (h : ∀ g a, step' (g.mapTemps ρ) (m a) = (step g a).mapTemps ρ) (as : List α)
    (g : Interference) :
    (as.map m).foldl step' (g.mapTemps ρ) = (as.foldl step g).mapTemps ρ := by
  induction as generalizing g with
  | nil => rfl
  | cons a as ih => rw [map_cons, foldl_cons, h, ih, foldl_cons]

theorem addDefs_mapTemps (out : TempSet) (g : Interference) (defs : List Temp) :
    (g.mapTemps ρ).addDefs (.rename ρ out) (defs.map ρ) = (g.addDefs out defs).mapTemps ρ := by
  induction defs generalizing g with
  | nil => rfl
  | cons d rest ih =>
    rw [map_cons, addDefs, TempSet.toList_rename, ← map_append,
      foldl_mapTemps fun g t => g.addEdge_mapTemps d t, ih, addDefs]

/-- So is all that an instruction adds. -/
theorem addInstruction_mapTemps (g : Interference) (i : Instruction) (out : TempSet) :
    (g.mapTemps ρ).addInstruction (i.mapTemps ρ) (.rename ρ out)
      = (g.addInstruction i out).mapTemps ρ := by
  have hdefs := g.addDefs_mapTemps (ρ := ρ) out i.defs
  obtain ⟨opcode, operands, uses, defs, targets, isCopy⟩ := i
  cases isCopy with
  | false => exact hdefs
  | true =>
    cases defs with
    | nil => exact hdefs
    | cons dst defs =>
      cases uses with
      | nil => exact hdefs
      | cons src uses =>
        have hfilter : (TempSet.rename ρ out).toList.filter (· ≠ ρ src)
            = (out.toList.filter (· ≠ src)).map ρ := by
          rw [TempSet.toList_rename, filter_map]
          refine congrArg _ (filter_congr fun t _ => ?_)
          exact decide_eq_decide.mpr (not_congr ρ.eq_iff)
        show addMove (List.foldl _ _ _) (ρ dst) (ρ src) = _
        rw [hfilter, foldl_mapTemps fun g t => g.addEdge_mapTemps dst t, addMove_mapTemps]
        rfl

/-- **The interference graph of renamed code.** -/
theorem build_mapTemps (code : List Instruction) (live : Liveness) (registers : Nat) :
    build (code.map (Instruction.mapTemps ρ)) (live.mapTemps ρ) registers
      = (build code live registers).mapTemps ρ := by
  have htemps : (code.map (Instruction.mapTemps ρ)).flatMap (fun i => i.uses ++ i.defs)
      = (code.flatMap fun i => i.uses ++ i.defs).map ρ := by
    rw [flatMap_map, map_flatMap]
    exact congrArg (List.flatMap · code) (funext fun i => (map_append ..).symm)
  have hzip : (code.map (Instruction.mapTemps ρ)).zip (live.mapTemps ρ).liveOut.toList
      = (code.zip live.liveOut.toList).map (Prod.map (.mapTemps ρ) (.rename ρ)) := by
    rw [Liveness.mapTemps, Array.toList_map, zip_map]
  have hempty : ({} : Interference) = mapTemps ρ {} := congrArg mk Array.map_empty.symm
  rw [build, htemps, hzip, hempty, foldl_mapTemps (ensure_mapTemps registers)]
  exact foldl_mapTemps (fun g entry => g.addInstruction_mapTemps entry.1 entry.2) _ _

end Interference

/-! ## Colours -/

/-- Reductions know nodes by number, so they are the same. -/
theorem Reduction.new_mapTemps (g : Interference) (registers : Nat) (avoid : TempSet) :
    new (g.mapTemps ρ) registers (.rename ρ avoid) = new g registers avoid := by
  have havoid (n : InterferenceNode) :
      (TempSet.rename ρ avoid).contains (n.mapTemps ρ).temp = avoid.contains n.temp := by
    rw [Bool.eq_iff_iff]
    exact TempSet.apply_mem_rename
  simp only [new, Interference.mapTemps, Array.map_map, Array.size_map]
  congr 1
  exact congrArg (Array.map · g.nodes) (funext havoid)

namespace Coloring

/-- The second colouring gives renamed temps the colours of the first, and leaves the
same temps without one. -/
structure Mirrors (ρ : Temp.Renaming) (c c' : Coloring) : Prop where
  colors : ∀ t : Temp, c'.colors[ρ t]? = c.colors[t]?
  spilled : c'.spilled = c.spilled.map ρ

/-- The colours of renamed temps, once they are collected. -/
theorem getElem?_foldl_map (nodes : List InterferenceNode) {colors colors' : TempMap Nat}
    (h : ∀ t, colors'[ρ t]? = colors[t]?) (t : Temp) :
    ((nodes.map (InterferenceNode.mapTemps ρ)).foldl (fun colors n =>
      match n.color with
      | .color c => colors.insert n.temp c
      | _ => colors) colors')[ρ t]? = (nodes.foldl (fun colors n =>
      match n.color with
      | .color c => colors.insert n.temp c
      | _ => colors) colors)[t]? := by
  induction nodes generalizing colors colors' with
  | nil => exact h t
  | cons n nodes ih =>
    refine ih fun u => ?_
    dsimp only [InterferenceNode.mapTemps]
    split
    · rw [Std.ExtTreeMap.getElem?_insert, Std.ExtTreeMap.getElem?_insert, ρ.compare_eq, h]
    · exact h u

theorem mirrors_ofGraph (g : Interference) (merges merges' : List (Temp × Temp)) :
    Mirrors ρ (ofGraph g merges) (ofGraph (g.mapTemps ρ) merges') where
  colors t := by
    show (Array.foldl _ _ (g.nodes.map _))[ρ t]? = (Array.foldl _ _ g.nodes)[t]?
    rw [← Array.foldl_toList, Array.toList_map, ← Array.foldl_toList]
    exact getElem?_foldl_map _ (fun _ => rfl) t
  spilled := by
    show (List.filter _ (g.nodes.map _).toList).map _ = (List.map _ (List.filter _ _)).map _
    rw [Array.toList_map, filter_map, map_map, map_map]
    rfl

end Coloring

/-- **Renamed graphs are coloured alike.** -/
theorem Interference.colorAvoiding_mapTemps (g : Interference) (registers : Nat) (avoid : TempSet) :
    Coloring.Mirrors ρ (g.colorAvoiding registers avoid).1
      ((g.mapTemps ρ).colorAvoiding registers (.rename ρ avoid)).1 := by
  unfold colorAvoiding
  dsimp only
  rw [Reduction.new_mapTemps]
  have hcolors : (g.mapTemps ρ).nodes.map (·.color) = g.nodes.map (·.color) := Array.map_map
  have hnodes (colors : Array NodeColor) :
      (g.mapTemps ρ).nodes.mapIdx (fun i n => { n with color := colors.getD i .unset })
        = (g.nodes.mapIdx fun i n => { n with color := colors.getD i .unset }).map
            (.mapTemps ρ) := by
    refine Array.ext_getElem? fun i => ?_
    rw [mapTemps, Array.getElem?_mapIdx, Array.getElem?_map, Array.getElem?_map,
      Array.getElem?_mapIdx, Option.map_map, Option.map_map]
    rfl
  rw [hcolors, hnodes]
  exact Coloring.mirrors_ofGraph ⟨_⟩ _ _

end TreeBackend
