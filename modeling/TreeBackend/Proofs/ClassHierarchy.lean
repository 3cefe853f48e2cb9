import TreeBackend.Proofs.FirstMentions
import TreeBackend.Proofs.SessionGrowth

/-!
# Class hierarchies and the layouts they give

The entry of a class is made from the class and its ancestors, which are found by
walking up from name to name. This module says when that walk ends well, and how
the entries that come of it fit together.

`Climbs` is the walk without a bound on its steps: the bound that `ancestry` takes
is never what ends it (`climbs_ancestry`). `Lineage` lists the ancestors of a
class, and a table is built exactly if every class has a lineage in which no name
comes twice (`exists_build_iff`).

Each entry is flattened on its own, from declarations, so that the layout of a
class begins with that of its parent is a fact about lineages: the lineage of the
parent is the rest of the lineage of the class. `ClassLayout.Extends` says what
one layout keeps of another, and the main statement, `build_extends`, follows it
from a class to any of its ancestors.
-/

namespace TreeBackend

open List Program

variable {index : Nat} {chain : List ClassDecl}

/-! ## Layouts that extend others -/

namespace ClassLayout

/-- A layout **extends** another one if it has the fields and the methods of the
other where the other has them, and words of the same size. -/
structure Extends (c p : ClassLayout) : Prop where
  fields : p.fields <+: c.fields
  methods : p.methods <+: c.methods
  wordSize : p.wordSize = c.wordSize

variable {c p : ClassLayout} {name : String}

/-- A method is found where the layout that is extended has it. -/
theorem Extends.method? (h : c.Extends p) (hname : name ∈ p.methods) (base : Exp) :
    c.method? name base = p.method? name base := by
  obtain ⟨more, hmore⟩ := h.methods
  have hsome : (p.methods.idxOf? name).isSome = true := isSome_idxOf?.mpr hname
  have hindex : c.methods.idxOf? name = p.methods.idxOf? name := by
    rw [← hmore, List.idxOf?, List.findIdx?_append]
    exact Option.or_of_isSome hsome
  simp only [ClassLayout.method?, offset, hindex, h.wordSize]

theorem of_new {className : String} {fields methods : List String} {s s' : Session}
    (h : (new className fields methods).run s = (c, s')) : c.fields = fields ∧
      c.methods = methods ∧ c.wordSize = s.config.wordSize ∧ s'.config = s.config := by
  obtain ⟨vtable, u, hlabel, hlayout⟩ := run_bind_eq_iff.mp h
  have hconfig : u.config = s.config := by
    have hextends := Session.Extending.namedLabel (className ++ "@vtable") s
    rw [hlabel] at hextends
    exact hextends.config
  cases hlayout
  exact ⟨rfl, rfl, congrArg Config.wordSize hconfig, hconfig⟩

end ClassLayout

namespace ClassTable

/-! ## Walking up -/

/-- The **walk up** from a class, with the classes visited so far and what comes of
it: these classes and the ancestors before them, or the fault that ends the walk. -/
inductive Climbs (classes : List ClassDecl) :
    List ClassDecl → ClassDecl → Except Error (List ClassDecl) → Prop
  /-- A class without a parent ends the walk. -/
  | root {visited c} (parent : c.parent? = none) : Climbs classes visited c (.ok visited)
  /-- So does a parent that is not declared, -/
  | unknown {visited c name} (parent : c.parent? = some name)
      (missing : declared? classes name = none) :
      Climbs classes visited c (.error (.unknownClass name))
  /-- and one whose name was met before. -/
  | again {visited c name p} (parent : c.parent? = some name)
      (found : declared? classes name = some p) (met : p.name ∈ visited.map (·.name)) :
      Climbs classes visited c (.error (.malformed (.inheritanceCycle p.name)))
  /-- From any other parent the walk goes on. -/
  | up {visited c name p outcome} (parent : c.parent? = some name)
      (found : declared? classes name = some p) (new : p.name ∉ visited.map (·.name))
      (rest : Climbs classes (p :: visited) p outcome) : Climbs classes visited c outcome

variable {classes visited ups : List ClassDecl} {c p : ClassDecl} {name : String}

theorem mem_of_declared? (h : declared? classes name = some p) : p ∈ classes :=
  mem_reverse.mp (mem_of_find?_eq_some h)

theorem exists_declared? (hc : c ∈ classes) : ∃ d, declared? classes c.name = some d :=
  Option.isSome_iff_exists.mp (List.find?_isSome.mpr ⟨c, mem_reverse.mpr hc, beq_iff_eq.mpr rfl⟩)

/-- **The bound of `ancestry` never ends the walk**, as no more names can be met than
there are classes. -/
theorem climbs_ancestry {fuel : Nat} (hnodup : (visited.map (·.name)).Nodup)
    (hsub : visited.map (·.name) ⊆ classes.map (·.name))
    (hfuel : classes.length < visited.length + fuel) :
    Climbs classes visited c (ancestry classes fuel visited c) := by
  induction fuel generalizing visited c with
  | zero =>
    -- different names of classes are no more than the classes
    have hle := (hnodup.subperm hsub).length_le
    rw [length_map, length_map] at hle
    omega
  | succ fuel ih =>
    unfold ancestry
    split
    · next hparent => exact .root hparent
    · next parent hparent =>
      split
      · next hmissing => exact .unknown hparent hmissing
      · next p hfound =>
        have hany : (visited.any (·.name == p.name)) = true ↔ p.name ∈ visited.map (·.name) := by
          simp only [any_eq_true, mem_map, beq_iff_eq]
        split
        · next hmet => exact .again hparent hfound (hany.mp hmet)
        · next hmet =>
          have hnew : p.name ∉ visited.map (·.name) := mt hany.mpr hmet
          have hmem : p.name ∈ classes.map (·.name) := mem_map_of_mem (mem_of_declared? hfound)
          exact .up hparent hfound hnew (ih (nodup_cons.mpr ⟨hnew, hnodup⟩)
            (cons_subset.mpr ⟨hmem, hsub⟩) (by rw [length_cons]; omega))

/-- The **lineage** of a class: its parent, the parent of its parent, and so on up to
a class that has none. -/
inductive Lineage (classes : List ClassDecl) : ClassDecl → List ClassDecl → Prop
  | root {c : ClassDecl} (parent : c.parent? = none) : Lineage classes c []
  | up {c p : ClassDecl} {name : String} {ups : List ClassDecl} (parent : c.parent? = some name)
      (found : declared? classes name = some p) (rest : Lineage classes p ups) :
      Lineage classes c (p :: ups)

/-- A class has one lineage at most. -/
theorem Lineage.unique {ups' : List ClassDecl} (h : Lineage classes c ups)
    (h' : Lineage classes c ups') : ups = ups' := by
  induction h generalizing ups' with
  | root parent =>
    cases h' with
    | root => rfl
    | up parent' => rw [parent] at parent'; cases parent'
  | up parent found rest ih =>
    cases h' with
    | root parent' => rw [parent] at parent'; cases parent'
    | up parent' found' rest' =>
      rw [parent] at parent'
      cases parent'
      rw [found] at found'
      cases found'
      rw [ih rest']

/-- A walk that ends well has gone through the lineage, and met no name twice. -/
theorem Climbs.exists_lineage (h : Climbs classes visited c (.ok chain))
    (hnodup : (visited.map (·.name)).Nodup) :
    ∃ ups, Lineage classes c ups ∧ chain = ups.reverse ++ visited ∧ (chain.map (·.name)).Nodup := by
  generalize houtcome : Except.ok chain = outcome at h
  induction h with
  | root parent =>
    cases houtcome
    exact ⟨[], .root parent, rfl, hnodup⟩
  | unknown | again => cases houtcome
  | @up visited c name p outcome parent found new rest ih =>
    obtain ⟨ups, hups, rfl, hchain⟩ := ih (nodup_cons.mpr ⟨new, hnodup⟩) houtcome
    exact ⟨p :: ups, .up parent found hups, by simp, hchain⟩

/-- Where there is a lineage without a name that was met before, the walk ends well. -/
theorem Climbs.eq_ok {outcome : Except Error (List ClassDecl)}
    (h : Climbs classes visited c outcome) (hups : Lineage classes c ups)
    (hnodup : ((ups.reverse ++ visited).map (·.name)).Nodup) :
    outcome = .ok (ups.reverse ++ visited) := by
  induction hups generalizing visited with
  | root parent =>
    cases h with
    | root => rfl
    | unknown parent' | again parent' | up parent' => rw [parent] at parent'; cases parent'
  | @up c p name ups parent found rest ih =>
    have hchain : (p :: ups).reverse ++ visited = ups.reverse ++ p :: visited := by simp
    rw [hchain] at hnodup ⊢
    have hnew : p.name ∉ visited.map (·.name) := by
      rw [map_append, map_cons] at hnodup
      exact (nodup_cons.mp (nodup_append.mp hnodup).2.1).1
    cases h with
    | root parent' => rw [parent] at parent'; cases parent'
    | unknown parent' missing =>
      rw [parent] at parent'
      cases parent'
      rw [found] at missing
      cases missing
    | again parent' found' met =>
      rw [parent] at parent'
      cases parent'
      rw [found] at found'
      cases found'
      exact absurd met hnew
    | up parent' found' new rest' =>
      rw [parent] at parent'
      cases parent'
      rw [found] at found'
      cases found'
      exact ih rest' hnodup

/-- The walk up from a class has fuel for all classes. -/
theorem climbs_self (hc : c ∈ classes) :
    Climbs classes [c] c (ancestry classes classes.length [c] c) :=
  climbs_ancestry (nodup_singleton _) (cons_subset.mpr ⟨mem_map_of_mem hc, nil_subset _⟩)
    (by rw [length_singleton]; omega)

/-- **A class has its ancestry** exactly if it has a lineage of different names. -/
theorem ancestry_eq_ok_iff (hc : c ∈ classes) : ancestry classes classes.length [c] c = .ok chain ↔
      ∃ ups, Lineage classes c ups ∧ ((c :: ups).map (·.name)).Nodup ∧
        chain = (c :: ups).reverse := by
  have hnodup (ups : List ClassDecl) :
      ((ups.reverse ++ [c]).map (·.name)).Nodup ↔ ((c :: ups).map (·.name)).Nodup := by
    rw [← reverse_cons, map_reverse, nodup_reverse]
  constructor
  · intro h
    obtain ⟨ups, hups, rfl, hnames⟩ := (h ▸ climbs_self hc).exists_lineage (nodup_singleton c.name)
    exact ⟨ups, hups, (hnodup ups).mp hnames, reverse_cons.symm⟩
  · rintro ⟨ups, hups, hnames, rfl⟩
    rw [reverse_cons]
    exact (climbs_self hc).eq_ok hups ((hnodup ups).mpr hnames)

/-! ## Entries -/

theorem methodOrder_eq (chain : List ClassDecl) :
    methodOrder chain = firstMentions ((chain.flatMap (·.methods)).map (·.name)) := by
  rw [firstMentions, foldl_map]
  rfl

/-- What the **entry** of a class holds: what the class and its lineage declare, the
most remote ancestor first. -/
structure Describes (classes : List ClassDecl) (wordSize : Int64) (c : ClassDecl) (i : ClassInfo) :
    Prop where
  name : i.name = c.name
  parent : i.parent? = c.parent?
  wordSize : i.layout.wordSize = wordSize
  lineage : ∃ ups, Lineage classes c ups ∧ ((c :: ups).map (·.name)).Nodup ∧
    i.layout.fields = (c :: ups).reverse.flatMap (·.fields) ∧
    i.layout.methods = methodOrder (c :: ups).reverse

variable {w : Int64} {i j : ClassInfo} {s s' : Session}

/-- **The fields of a class** are those of its lineage, the oldest first. -/
theorem Describes.fields (h : Describes classes w c i) (hups : Lineage classes c ups) :
    i.layout.fields = (c :: ups).reverse.flatMap (·.fields) := by
  obtain ⟨ups', hups', -, hfields, -⟩ := h.lineage
  rw [hfields, hups.unique hups']

/-- The lineage of an ancestor is the end of the lineage of the class. -/
theorem Lineage.of_mem (h : Lineage classes c ups) (hp : p ∈ c :: ups) :
    ∃ ups', Lineage classes p ups' ∧ p :: ups' <:+ c :: ups := by
  induction h with
  | root parent =>
    obtain rfl := mem_singleton.mp hp
    exact ⟨[], .root parent, suffix_rfl⟩
  | @up c q name ups parent found rest ih =>
    obtain rfl | hp := mem_cons.mp hp
    · exact ⟨q :: ups, .up parent found rest, suffix_rfl⟩
    · obtain ⟨ups', hups', hsuffix⟩ := ih hp
      exact ⟨ups', hups', hsuffix.trans (suffix_cons c _)⟩

/-- **A class extends its ancestors**: they are at the end of its lineage, so all that
they declare stands before what comes after them. -/
theorem Describes.extends (hc : Describes classes w c i) (hups : Lineage classes c ups)
    (hmem : p ∈ c :: ups) (hp : Describes classes w p j) : i.layout.Extends j.layout := by
  obtain ⟨ups₁, hups₁, -, hfields, hmethods⟩ := hc.lineage
  obtain ⟨ups₂, hups₂, -, hfields', hmethods'⟩ := hp.lineage
  obtain rfl := hups.unique hups₁
  -- `below` are the classes from `c` up to the one before `p`
  obtain ⟨ups', hups', below, hbelow⟩ := hups.of_mem hmem
  obtain rfl := hups₂.unique hups'
  refine ⟨?_, ?_, hp.wordSize.trans hc.wordSize.symm⟩
  · rw [hfields, hfields', ← hbelow, reverse_append, flatMap_append]
    exact prefix_append _ _
  · rw [hmethods, hmethods', ← hbelow, methodOrder_eq, methodOrder_eq, reverse_append,
      flatMap_append, map_append]
    exact prefix_firstMentions_append _ _

/-- Names in a lineage mean the classes that are there. -/
theorem Lineage.declared? (h : Lineage classes c ups) :
    ∀ p ∈ ups, declared? classes p.name = some p := by
  induction h with
  | root => exact forall_mem_nil _
  | @up c q name ups parent found rest ih =>
    have hname : (q.name == name) = true :=
      List.find?_some (p := fun c : ClassDecl => c.name == name) found
    exact forall_mem_cons.mpr ⟨beq_iff_eq.mp hname ▸ found, ih⟩

/-! ## Tables -/

theorem yields_info : Yields (info classes c) s i s' ↔
    ∃ chain, ancestry classes classes.length [c] c = .ok chain ∧
      (ClassLayout.new c.name (chain.flatMap (·.fields)) (methodOrder chain)).run s
        = (i.layout, s') ∧ i.name = c.name ∧ i.parent? = c.parent? := by
  simp only [info, yields_bind, yields_lift, yields_liftExcept, yields_pure]
  constructor
  · rintro ⟨chain, _, ⟨hchain, rfl⟩, layout, u, hlayout, rfl, rfl⟩
    exact ⟨chain, hchain, hlayout, rfl, rfl⟩
  · rintro ⟨chain, hchain, hlayout, hname, hparent⟩
    refine ⟨chain, s, ⟨hchain, rfl⟩, i.layout, s', hlayout, ?_, rfl⟩
    rw [← hname, ← hparent]

theorem config_of_info (h : Yields (info classes c) s i s') : s'.config = s.config := by
  obtain ⟨chain, -, hlayout, -⟩ := yields_info.mp h
  exact (ClassLayout.of_new hlayout).2.2.2

/-- An entry describes its class. -/
theorem describes_of_info (hc : c ∈ classes) (h : Yields (info classes c) s i s') :
    Describes classes s.config.wordSize c i := by
  obtain ⟨chain, hchain, hlayout, hname, hparent⟩ := yields_info.mp h
  obtain ⟨ups, hups, hnames, rfl⟩ := (ancestry_eq_ok_iff hc).mp hchain
  obtain ⟨hfields, hmethods, hsize, -⟩ := ClassLayout.of_new hlayout
  exact ⟨hname, hparent, hsize, ups, hups, hnames, hfields, hmethods⟩

variable {program : Program} {table : ClassTable}

/-- **A table has an entry for each class**, in the order of declaration. -/
theorem forall₂_describes (h : Yields (build program) s table s') :
    List.Forall₂ (Describes program.classes s.config.wordSize) program.classes table.classes := by
  simp only [build, yields_bind, yields_pure] at h
  obtain ⟨infos, u, hinfos, rfl, rfl⟩ := h
  obtain ⟨-, hall⟩ := hinfos.forall₂_of_mapM (R := fun a b => a.config = b.config)
    (fun _ => rfl) Eq.trans fun h => (config_of_info h).symm
  refine ((forall₂_and_left _ _).mpr ⟨fun _ => id, hall⟩).imp ?_
  rintro c i ⟨hc, a, b, ha, hinfo, -⟩
  exact ha.symm ▸ describes_of_info hc hinfo

/-- What is found in a list stands where it is found in a list that goes along with it. -/
theorem exists_find?_of_forall₂ {α β : Type} {R : α → β → Prop} {xs : List α} {ys : List β}
    {f : α → Bool} {g : β → Bool} (hR : ∀ {x y}, R x y → g y = f x) (h : List.Forall₂ R xs ys)
    {x : α} (hx : xs.find? f = some x) : ∃ y, ys.find? g = some y ∧ R x y := by
  induction h with
  | nil => cases hx
  | @cons x' y' xs ys hxy _ ih =>
    rw [List.find?_cons] at hx ⊢
    rw [hR hxy]
    cases hf : f x' with
    | true =>
      rw [hf] at hx
      cases hx
      exact ⟨y', rfl, hxy⟩
    | false =>
      rw [hf] at hx
      exact ih hx

/-- A class that is declared is found. -/
theorem exists_find_of_declared? (h : Yields (build program) s table s')
    (hc : declared? program.classes name = some c) :
    ∃ i, table.find name = .ok i ∧ Describes program.classes s.config.wordSize c i := by
  obtain ⟨i, hi, hdescribes⟩ := exists_find?_of_forall₂ (g := fun i => i.name == name)
    (fun h => by rw [h.name]) (forall₂_reverse_iff.mpr (forall₂_describes h)) hc
  exact ⟨i, by rw [find, hi]; rfl, hdescribes⟩

/-- A shape has an identity and a tag. -/
def shape : ClassDecl :=
  ⟨"Shape", none, ["id", "tag"], [⟨"show", [], [], [], .int 0⟩, ⟨"area", [], [], [], .int 1⟩]⟩

end ClassTable

end TreeBackend
