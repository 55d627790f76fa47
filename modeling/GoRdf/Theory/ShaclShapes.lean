import GoRdf.Core.ShaclShapes
import GoRdf.Lib.Acyclic
import GoRdf.Theory.ShaclPath

/-!
# Conformance to a Shape

`validateShapeOnNode` against the definition of conformance in SHACL 1.0.

The definition is an equation: whether a node conforms to a shape is said in
terms of whether nodes conform to the shapes it refers to. In a shapes graph
without recursion the equation has one solution. The validation finds it, with
two exceptions in qualified value shapes, besides what the paths lose. The siblings
of a disjoint shape are collected from the other property shapes of its parents,
where the definition takes the qualified value shapes of all of them other than its
own: they differ when another property shape has the same qualified value shape,
which then counts as its own sibling, so that no value node counts. And a negative
maximum is taken for none.

What goes wrong in a shape matters where the validation comes to that shape. It
goes by the references and stops where the verdict is known: at the first failure
in a quick run or a conjunction, at the first success in a disjunction. `Consults`
follows it, and `Undisturbed` says that nothing goes wrong on the way.

## Main definitions

* `IsList`: A SHACL list and its members.
* `WellFormed`: A shapes graph in which the constraints can be read.
* `Refers`: A shape is consulted for another.
* `Satisfied`, `Conformance`: The definition, as an equation.
* `Consults`: One validation asks for another.
* `Undisturbed`: No defect of the validation is met from here on.

## Theorems

* `rdfList_eq`: `RDFList` reads a SHACL list.
* `existsUnique_conformance`: Without recursion the definition has one solution.
* `evaluate_spec`: A constraint reports nothing exactly when it holds.
* `validateShapeOnNode_spec`: So does the validation.
-/

namespace GoRdf

open List

namespace Shacl

open Relation

variable {q s t : ShaclTerm} {g : List ShaclTriple}

/-! ## Lookups at IRIs and blank nodes -/

/-- The terms that can be shapes. -/
inductive Resource : ShaclTerm → Prop
  | iri (v : String) : Resource (.iri v)
  | blank (v : String) : Resource (.blank v)

instance : DecidablePred Resource
  | .iri v => .isTrue (.iri v)
  | .blank v => .isTrue (.blank v)
  | .none | .literal _ _ _ => .isFalse (by intro h; cases h)

theorem Resource.eq_of_indexKey {a b : ShaclTerm} (ha : Resource a)
    (h : b.indexKey = a.indexKey) : b = a := by
  cases ha <;> cases b <;> simp_all [ShaclTerm.indexKey, String.toList_inj]

theorem Resource.eq_of_termKey {a b : ShaclTerm} (ha : Resource a)
    (h : b.termKey = a.termKey) : b = a := by
  cases ha with
  | iri v | blank v =>
    cases b with
    | literal => simp only [ShaclTerm.termKey] at h; split_ifs at h <;> simp at h
    | _ => simp_all [ShaclTerm.termKey, String.toList_inj]

section

variable {g : List ShaclTriple} {s o v : ShaclTerm} {p : String}

theorem mem_objectsOf_resource (hs : Resource s) :
    v ∈ objectsOf g s (.iri p) ↔ ⟨s, .iri p, v⟩ ∈ g := by
  simp only [objectsOf, mem_map, mem_filter, decide_eq_true_eq]
  constructor
  · rintro ⟨t, ⟨ht, hsubject, hpredicate⟩, rfl⟩
    rw [← hs.eq_of_indexKey hsubject, ← (Resource.iri p).eq_of_indexKey hpredicate]
    exact ht
  · intro h
    exact ⟨_, ⟨h, rfl, rfl⟩, rfl⟩

theorem mem_subjectsOf_resource (ho : Resource o) :
    v ∈ subjectsOf g (.iri p) o ↔ ⟨v, .iri p, o⟩ ∈ g := by
  simp only [subjectsOf, mem_map, mem_filter, decide_eq_true_eq]
  constructor
  · rintro ⟨t, ⟨ht, hpredicate, hobject⟩, rfl⟩
    rw [← ho.eq_of_indexKey hobject, ← (Resource.iri p).eq_of_indexKey hpredicate]
    exact ht
  · intro h
    exact ⟨_, ⟨h, rfl, rfl⟩, rfl⟩

/-- A property with one value: the lookup starts with it. -/
theorem objectsOf_eq_cons (hs : Resource s) (hv : ⟨s, .iri p, v⟩ ∈ g)
    (hsingle : ∀ w, ⟨s, .iri p, w⟩ ∈ g → w = v) :
    ∃ rest, objectsOf g s (.iri p) = v :: rest := by
  cases hobjects : objectsOf g s (.iri p) with
  | nil =>
    have hmem := (mem_objectsOf_resource hs).mpr hv
    rw [hobjects] at hmem
    cases hmem
  | cons w rest =>
    have hw : w ∈ objectsOf g s (.iri p) := by
      rw [hobjects]
      exact mem_cons_self
    rw [hsingle w ((mem_objectsOf_resource hs).mp hw)]
    exact ⟨rest, rfl⟩

theorem objectsOf_eq_nil (hs : Resource s) (hnone : ∀ w, ⟨s, .iri p, w⟩ ∉ g) :
    objectsOf g s (.iri p) = [] := by
  rw [eq_nil_iff_forall_not_mem]
  intro w hw
  exact hnone w ((mem_objectsOf_resource hs).mp hw)

end

/-! ## Lists -/

/-- A SHACL list and its members. Every cell has one first member and one rest. -/
inductive IsList (g : List ShaclTriple) : ShaclTerm → List ShaclTerm → Prop
  | nil : IsList g rdfNil []
  | cons {cell first rest : ShaclTerm} {items : List ShaclTerm} :
      Resource cell → cell ≠ rdfNil →
      ⟨cell, rdfFirst, first⟩ ∈ g → (∀ v, ⟨cell, rdfFirst, v⟩ ∈ g → v = first) →
      ⟨cell, rdfRest, rest⟩ ∈ g → (∀ v, ⟨cell, rdfRest, v⟩ ∈ g → v = rest) →
      IsList g rest items → IsList g cell (first :: items)

section

variable {g : List ShaclTriple} {cell : ShaclTerm} {items : List ShaclTerm}

variable (h : IsList g cell items)

include h

theorem IsList.unique {items' : List ShaclTerm} (h' : IsList g cell items') : items' = items := by
  induction h generalizing items' with
  | nil =>
    cases h' with
    | nil => rfl
    | cons _ hne => exact absurd rfl hne
  | cons _ hne _ hfirst _ hrest _ ih =>
    cases h' with
    | nil => exact absurd rfl hne
    | cons _ _ hfirst' _ hrest' _ htail =>
      have heq := hrest _ hrest'
      subst heq
      rw [hfirst _ hfirst', ih htail]

theorem IsList.mem_objects (ht : t ∈ items) : ∃ c, ⟨c, rdfFirst, t⟩ ∈ g := by
  induction h with
  | nil => cases ht
  | cons _ _ hfirst _ _ _ _ ih =>
    rcases mem_cons.mp ht with rfl | ht
    · exact ⟨_, hfirst⟩
    · exact ih ht

/-- The loop of `RDFList`, when the cells met before have longer lists. Each is the subject of
    a triple, so there is fuel left. -/
theorem rdfListFrom_eq : ∀ {fuel : Nat} {visited : List (List Char)}, visited.Nodup →
    visited ⊆ g.map (fun t => t.subject.termKey) → g.length < fuel + visited.length →
    (∀ k ∈ visited, ∃ c items', k = c.termKey ∧ IsList g c items' ∧ items.length < items'.length) →
    rdfListFrom g fuel visited cell = items := by
  have hpos : ∀ {fuel : Nat} {visited : List (List Char)}, visited.Nodup →
      visited ⊆ g.map (fun t => t.subject.termKey) → g.length < fuel + visited.length →
      ∃ f, fuel = f + 1 := by
    intro fuel visited hnodup hsubset hfuel
    have hle := (subperm_of_subset hnodup hsubset).length_le
    rw [length_map] at hle
    exact Nat.exists_eq_add_one.mpr (by omega)
  induction h with
  | nil =>
    intro fuel visited hnodup hsubset hfuel _
    rcases hpos hnodup hsubset hfuel with ⟨fuel, rfl⟩
    rfl
  | @cons cell first rest items hcell hne hfirst hfirsts hrest hrests htail ih =>
    intro fuel visited hnodup hsubset hfuel hvisited
    have hlist := IsList.cons hcell hne hfirst hfirsts hrest hrests htail
    have hnil : cell.equal rdfNil = false := by
      rw [Bool.eq_false_iff]
      intro heq
      refine hne ((equal_iff ?_).mp heq)
      cases hcell <;> simp
    -- The list of a cell is unique and longer than what follows, so no cell is met twice.
    have hnew : cell.termKey ∉ visited := by
      intro hk
      rcases hvisited _ hk with ⟨c, items', hkey, hlist', hlt⟩
      rw [hcell.eq_of_termKey hkey.symm] at hlist'
      rw [hlist.unique hlist'] at hlt
      omega
    rcases hpos hnodup hsubset hfuel with ⟨fuel, rfl⟩
    rcases objectsOf_eq_cons hcell hfirst hfirsts with ⟨others, hf⟩
    rcases objectsOf_eq_cons hcell hrest hrests with ⟨others', hr⟩
    rw [rdfListFrom, if_neg (by simp [hnil]), if_neg (by rwa [contains_iff_mem])]
    unfold rdfFirst rdfRest
    rw [hf, hr]
    dsimp only
    rw [ih (nodup_cons.mpr ⟨hnew, hnodup⟩)
      (cons_subset.mpr ⟨mem_map.mpr ⟨_, hfirst, rfl⟩, hsubset⟩) (by rw [length_cons]; omega)]
    intro k hk
    rcases mem_cons.mp hk with rfl | hk
    · exact ⟨cell, _, rfl, hlist, by simp⟩
    · rcases hvisited k hk with ⟨c, items', hkey, hlist', hlt⟩
      rw [length_cons] at hlt
      exact ⟨c, items', hkey, hlist', by omega⟩

theorem rdfList_eq : rdfList g cell = items :=
  rdfListFrom_eq h nodup_nil (nil_subset _) (Nat.lt_succ_self _) (by simp)

end

/-! ## The definition of conformance -/

def booleanTrue : ShaclTerm := .literal "true" "http://www.w3.org/2001/XMLSchema#boolean" ""

def booleanFalse : ShaclTerm := .literal "false" "http://www.w3.org/2001/XMLSchema#boolean" ""

/-- The number an integer literal denotes. -/
def integerValue (t : ShaclTerm) : Option Int :=
  let cs := (value t).toList
  if allDigits (skipSign cs) then
    let n : Int := digitsValue (skipSign cs)
    some (if cs.head? = some '-' then -n else n)
  else none

/-- The predicates whose values are shapes. -/
def shapeRefs : List ShaclTerm :=
  [shNode, shProperty, shNot, shQualifiedValueShape]

/-- The predicates whose values are lists of shapes. -/
def shapeLists : List ShaclTerm :=
  [shAnd, shOr, shXone]

/-- What SHACL asks of the shapes of a shapes graph. -/
structure WellFormed (g : List ShaclTriple) : Prop where
  subjects : ∀ t ∈ g, Resource t.subject
  refs : ∀ p ∈ shapeRefs, ∀ s t, ⟨s, p, t⟩ ∈ g → Resource t
  lists : ∀ p ∈ shapeLists, ∀ s l, ⟨s, p, l⟩ ∈ g →
    ∃ items, IsList g l items ∧ ∀ t ∈ items, Resource t
  single : ∀ p ∈ [shPath, shDeactivated, shQualifiedValueShape, shQualifiedMinCount,
    shQualifiedMaxCount, shQualifiedValueShapesDisjoint], ∀ s v w,
    ⟨s, p, v⟩ ∈ g → ⟨s, p, w⟩ ∈ g → w = v
  booleans : ∀ p ∈ [shDeactivated, shQualifiedValueShapesDisjoint], ∀ s v,
    ⟨s, p, v⟩ ∈ g → v = booleanTrue ∨ v = booleanFalse
  integers : ∀ p ∈ [shQualifiedMinCount, shQualifiedMaxCount], ∀ s v,
    ⟨s, p, v⟩ ∈ g → ∃ k, integerValue v = some k
  paths : ∀ s t, ⟨s, shProperty, t⟩ ∈ g → ∃ p, ⟨t, shPath, p⟩ ∈ g

/-- The sibling shapes of a shape with the qualified value shape `q`. -/
def Sibling (g : List ShaclTriple) (s q t : ShaclTerm) : Prop :=
  (∃ parent other, ⟨parent, shProperty, s⟩ ∈ g ∧ ⟨parent, shProperty, other⟩ ∈ g ∧
    ⟨other, shQualifiedValueShape, t⟩ ∈ g) ∧ t ≠ q

/-- The shapes that have a say in whether a node conforms to `s`. -/
inductive Refers (g : List ShaclTriple) (s : ShaclTerm) : ShaclTerm → Prop
  | ref {p t : ShaclTerm} : p ∈ shapeRefs → ⟨s, p, t⟩ ∈ g → Refers g s t
  | member {p l t : ShaclTerm} {items : List ShaclTerm} :
      p ∈ shapeLists → ⟨s, p, l⟩ ∈ g → IsList g l items → t ∈ items → Refers g s t
  | sibling {q t : ShaclTerm} : ⟨s, shQualifiedValueShapesDisjoint, booleanTrue⟩ ∈ g →
      ⟨s, shQualifiedValueShape, q⟩ ∈ g → Sibling g s q t → Refers g s t

/-- No shape has a say in itself. -/
def NonRecursive (g : List ShaclTriple) : Prop :=
  ∀ s, ¬ TransGen (Refers g) s s

section

variable {π : Type} (ctx : Context π) (C : ShaclTerm → ShaclTerm → Prop)

/-- The value nodes of a shape: what the path leads to, or the focus node if there
    is none. -/
def ValueNode (s n v : ShaclTerm) : Prop :=
  (∃ p, ⟨s, shPath, p⟩ ∈ ctx.shapes ∧ PathRel ctx.data (ctx.parsePath p) n v) ∨
    (∀ p, ⟨s, shPath, p⟩ ∉ ctx.shapes) ∧ v = n

/-- The value nodes that count for the qualified value shape `q`. -/
def Qualified (s q n : ShaclTerm) : Set ShaclTerm :=
  {v | ValueNode ctx s n v ∧ C q v ∧
    (⟨s, shQualifiedValueShapesDisjoint, booleanTrue⟩ ∈ ctx.shapes →
      ∀ t, Sibling ctx.shapes s q t → ¬ C t v)}

/-- A number of value nodes is within the bounds of a shape. -/
def WithinCounts (s : ShaclTerm) (count : Nat) : Prop :=
  (∀ m k, ⟨s, shQualifiedMinCount, m⟩ ∈ ctx.shapes → integerValue m = some k → k ≤ (count : Int)) ∧
    ∀ m k, ⟨s, shQualifiedMaxCount, m⟩ ∈ ctx.shapes → integerValue m = some k → (count : Int) ≤ k

open Classical in
/-- The constraints of a shape hold at a focus node, where `C` says which nodes
    conform to the shapes referred to. -/
structure Satisfied (s n : ShaclTerm) : Prop where
  given : ∀ c ∈ ctx.before s ++ ctx.after s, ctx.report c s n = []
  node : ∀ t, ⟨s, shNode, t⟩ ∈ ctx.shapes → ∀ v, ValueNode ctx s n v → C t v
  property : ∀ t, ⟨s, shProperty, t⟩ ∈ ctx.shapes → ∀ v, ValueNode ctx s n v → C t v
  and : ∀ l items, ⟨s, shAnd, l⟩ ∈ ctx.shapes → IsList ctx.shapes l items →
    ∀ v, ValueNode ctx s n v → ∀ t ∈ items, C t v
  or : ∀ l items, ⟨s, shOr, l⟩ ∈ ctx.shapes → IsList ctx.shapes l items →
    ∀ v, ValueNode ctx s n v → ∃ t ∈ items, C t v
  not : ∀ t, ⟨s, shNot, t⟩ ∈ ctx.shapes → ∀ v, ValueNode ctx s n v → ¬ C t v
  xone : ∀ l items, ⟨s, shXone, l⟩ ∈ ctx.shapes → IsList ctx.shapes l items →
    ∀ v, ValueNode ctx s n v → (items.filter fun t => C t v).length = 1
  qualified : ∀ q, ⟨s, shQualifiedValueShape, q⟩ ∈ ctx.shapes →
    WithinCounts ctx s (Qualified ctx C s q n).ncard

/-- The definition: every node conforms to a deactivated shape, and otherwise a
    node conforms if the constraints hold at it. -/
def Conformance : Prop :=
  ∀ s n, C s n ↔ ⟨s, shDeactivated, booleanTrue⟩ ∈ ctx.shapes ∨ Satisfied ctx C s n

end

/-! ## The definition has one solution -/

section

variable {π : Type} {ctx : Context π} {C D : ShaclTerm → ShaclTerm → Prop} {s n : ShaclTerm}

theorem Refers.mem_nodesOf (h : Refers g s t) : t ∈ nodesOf g := by
  cases h with
  | ref _ ht => exact object_mem_nodesOf ht
  | member _ _ hlist ht =>
    rcases hlist.mem_objects ht with ⟨c, hc⟩
    exact object_mem_nodesOf hc
  | sibling _ _ hsib =>
    rcases hsib with ⟨⟨_, _, _, _, ht⟩, _⟩
    exact object_mem_nodesOf ht

theorem qualified_congr (hq : ⟨s, shQualifiedValueShape, q⟩ ∈ ctx.shapes)
    (h : ∀ t, Refers ctx.shapes s t → C t = D t) :
    Qualified ctx C s q n = Qualified ctx D s q n := by
  ext v
  simp only [Qualified, Set.mem_ofPred_eq]
  rw [h q (.ref (by simp [shapeRefs]) hq)]
  refine and_congr_right fun _ => and_congr_right fun _ => ?_
  refine forall_congr' fun hdisjoint => forall_congr' fun t => forall_congr' fun ht => ?_
  rw [h t (.sibling hdisjoint hq ht)]

/-- Only the shapes referred to are consulted. -/
theorem Satisfied.congr (h : ∀ t, Refers ctx.shapes s t → C t = D t)
    (hC : Satisfied ctx C s n) : Satisfied ctx D s n where
  given := hC.given
  node := by
    intro t ht v hv
    rw [← h t (.ref (by simp [shapeRefs]) ht)]
    exact hC.node t ht v hv
  property := by
    intro t ht v hv
    rw [← h t (.ref (by simp [shapeRefs]) ht)]
    exact hC.property t ht v hv
  and := by
    intro l items hl hlist v hv t ht
    rw [← h t (.member (by simp [shapeLists]) hl hlist ht)]
    exact hC.and l items hl hlist v hv t ht
  or := by
    intro l items hl hlist v hv
    rcases hC.or l items hl hlist v hv with ⟨t, ht, htv⟩
    rw [h t (.member (by simp [shapeLists]) hl hlist ht)] at htv
    exact ⟨t, ht, htv⟩
  not := by
    intro t ht v hv
    rw [← h t (.ref (by simp [shapeRefs]) ht)]
    exact hC.not t ht v hv
  xone := by
    intro l items hl hlist v hv
    rw [← hC.xone l items hl hlist v hv]
    refine congrArg List.length (filter_congr ?_)
    intro t ht
    rw [h t (.member (by simp [shapeLists]) hl hlist ht)]
  qualified := by
    intro q hq
    rw [← qualified_congr hq h]
    exact hC.qualified q hq

/-- Every node satisfies a shape of which nothing is said. -/
theorem satisfied_of_not_subject
    (hgiven : ∀ c ∈ ctx.before s ++ ctx.after s, ctx.report c s n = [])
    (h : ∀ t ∈ ctx.shapes, t.subject ≠ s) : Satisfied ctx C s n where
  given := hgiven
  node := fun _ ht => absurd rfl (h _ ht)
  property := fun _ ht => absurd rfl (h _ ht)
  and := fun _ _ hl => absurd rfl (h _ hl)
  or := fun _ _ hl => absurd rfl (h _ hl)
  not := fun _ ht => absurd rfl (h _ ht)
  xone := fun _ _ hl => absurd rfl (h _ hl)
  qualified := fun _ hq => absurd rfl (h _ hq)

theorem exists_rank_refers (h : NonRecursive g) :
    ∃ rank : ShaclTerm → Nat, ∀ s t, Refers g s t → rank t < rank s := by
  refine Lib.exists_rank ?_ h
  intro s
  refine (finite_toSet (nodesOf g)).subset ?_
  intro t ht
  rcases (TransGen.tail'_iff).mp ht with ⟨_, -, hlast⟩
  exact hlast.mem_nodesOf

theorem nonRecursive_of_rank (rank : ShaclTerm → Nat) (h : ∀ s t, Refers g s t → rank t < rank s) :
    NonRecursive g := by
  intro s hs
  have hfall : TransGen (· > ·) (rank s) (rank s) := hs.lift rank h
  rw [transGen_eq_self] at hfall
  exact absurd hfall (Nat.lt_irrefl _)

/-- Without recursion, one relation satisfies the definition. -/
theorem existsUnique_conformance (h : NonRecursive ctx.shapes) :
    ∃! C : ShaclTerm → ShaclTerm → Prop, Conformance ctx C := by
  rcases exists_rank_refers h with ⟨rank, hrank⟩
  let body : (ShaclTerm → ShaclTerm → Prop) → ShaclTerm → ShaclTerm → Prop := fun C s n =>
    ⟨s, shDeactivated, booleanTrue⟩ ∈ ctx.shapes ∨ Satisfied ctx C s n
  have hlocal : ∀ C D s, (∀ t, Refers ctx.shapes s t → C t = D t) → body C s = body D s := by
    intro C D s heq
    funext n
    refine propext (or_congr_right ⟨Satisfied.congr heq, Satisfied.congr ?_⟩)
    exact fun t ht => (heq t ht).symm
  have hsolution : ∀ C, Conformance ctx C ↔ ∀ s, C s = body C s := by
    intro C
    refine forall_congr' fun s => ?_
    rw [funext_iff]
    exact forall_congr' fun n => (eq_iff_iff).symm
  simp only [hsolution]
  exact Lib.existsUnique_solution hlocal hrank

end

/-! ## What a constraint says -/

/-- The shapes a constraint consults. -/
def Constraint.refs {π : Type} : Constraint π → List ShaclTerm
  | .given _ => []
  | .and shapes | .or shapes | .xone shapes => shapes
  | .not ref | .node ref => [ref]
  | .qualified ref _ _ disjoint siblings => ref :: if disjoint then siblings else []

section

variable {π : Type} (ctx : Context π) (C : ShaclTerm → ShaclTerm → Prop)

/-- A value node counts for a qualified value shape. -/
def Counts (ref : ShaclTerm) (disjoint : Bool) (siblings : List ShaclTerm) (v : ShaclTerm) : Prop :=
  C ref v ∧ (disjoint = true → ∀ t ∈ siblings, ¬ C t v)

open Classical in
/-- A constraint holds at a focus node. -/
def Constraint.Holds (s n : ShaclTerm) : Constraint π → Prop
  | .given c => ctx.report c s n = []
  | .and shapes => ∀ v, ValueNode ctx s n v → ∀ t ∈ shapes, C t v
  | .or shapes => ∀ v, ValueNode ctx s n v → ∃ t ∈ shapes, C t v
  | .not ref => ∀ v, ValueNode ctx s n v → ¬ C ref v
  | .xone shapes => ∀ v, ValueNode ctx s n v → (shapes.filter fun t => C t v).length = 1
  | .node ref => ∀ v, ValueNode ctx s n v → C ref v
  | .qualified ref _ _ _ _ => WithinCounts ctx s (Qualified ctx C s ref n).ncard

/-- A constraint of a shape that is validated quickly or not asks for the validation of a
    value node against another shape. A conjunction stops at the first shape the node does
    not conform to, a disjunction and the siblings at the first it does. -/
inductive Constraint.Consults (values : List ShaclTerm) (quick : Bool) :
    Constraint π → Bool → ShaclTerm → ShaclTerm → Prop
  | and {shapes : List ShaclTerm} {t v : ShaclTerm} : v ∈ values →
      Lib.ReachedWhile (fun u => C u v) shapes t → Consults values quick (.and shapes) true t v
  | or {shapes : List ShaclTerm} {t v : ShaclTerm} : v ∈ values →
      Lib.ReachedWhile (fun u => ¬ C u v) shapes t → Consults values quick (.or shapes) true t v
  | not {t v : ShaclTerm} : v ∈ values → Consults values quick (.not t) true t v
  | xone {shapes : List ShaclTerm} {t v : ShaclTerm} : v ∈ values → t ∈ shapes →
      Consults values quick (.xone shapes) quick t v
  | node {t v : ShaclTerm} : v ∈ values → Consults values quick (.node t) quick t v
  | qualified {t v : ShaclTerm} {minCount maxCount : Int} {disjoint : Bool}
      {siblings : List ShaclTerm} : v ∈ values →
      Consults values quick (.qualified t minCount maxCount disjoint siblings) quick t v
  | sibling {ref t v : ShaclTerm} {minCount maxCount : Int} {siblings : List ShaclTerm} :
      v ∈ values → C ref v → Lib.ReachedWhile (fun u => ¬ C u v) siblings t →
      Consults values quick (.qualified ref minCount maxCount true siblings) quick t v

/-- A task finds nothing to report. -/
def Task.Holds (s n : ShaclTerm) : Task π → Prop
  | .constraint c => c.Holds ctx C s n
  | .property ps node => C ps.id node

/-- What a task asks for. -/
def Task.Consults (values : List ShaclTerm) (quick : Bool) :
    Task π → Bool → ShaclTerm → ShaclTerm → Prop
  | .constraint c, quick', t, v => c.Consults C values quick quick' t v
  | .property ps node, quick', t, v => quick' = quick ∧ t = ps.id ∧ v = node

/-- A validation of a node against a shape answers as `C` does. -/
def Answers (validate : Bool → Shape π → ShaclTerm → Option (List ValidationResult))
    (quick : Bool) (t v : ShaclTerm) : Prop :=
  ∃ rs, validate quick (parseShape ctx t) v = some rs ∧ (rs = [] ↔ C t v)

variable {ctx C} {validate : Bool → Shape π → ShaclTerm → Option (List ValidationResult)}

theorem Answers.isEmpty {quick : Bool} {v : ShaclTerm} (h : Answers ctx C validate quick t v) :
    ∃ b, (validate quick (parseShape ctx t) v).map List.isEmpty = some b ∧ (b = true ↔ C t v) := by
  rcases h with ⟨rs, hrs, hiff⟩
  exact ⟨rs.isEmpty, by rw [hrs]; rfl, by rw [List.isEmpty_iff, hiff]⟩

theorem Constraint.Consults.mem {c : Constraint π} {values : List ShaclTerm} {quick quick' : Bool}
    {v : ShaclTerm} (h : c.Consults C values quick quick' t v) : t ∈ c.refs ∧ v ∈ values := by
  cases h with
  | and hv ht | or hv ht => exact ⟨ht.mem, hv⟩
  | xone hv ht => exact ⟨ht, hv⟩
  | not hv | node hv | qualified hv => exact ⟨mem_cons_self, hv⟩
  | sibling hv _ ht => exact ⟨mem_cons_of_mem _ ht.mem, hv⟩

theorem parseShape_id (t : ShaclTerm) : (parseShape ctx t).id = t :=
  rfl

theorem shapeOf_eq (h : t ∈ discovered ctx) : shapeOf ctx t = some (parseShape ctx t) :=
  if_pos h

theorem filterMap_shapeOf {refs : List ShaclTerm} (h : ∀ t ∈ refs, t ∈ discovered ctx) :
    refs.filterMap (shapeOf ctx) = refs.map (parseShape ctx) := by
  rw [← filterMap_eq_map]
  exact filterMap_congr fun t ht => shapeOf_eq (h t ht)

section

variable (refs : List ShaclTerm) {v : ShaclTerm} (hfound : ∀ t ∈ refs, t ∈ discovered ctx)
  {quick : Bool}

include hfound

theorem allM_resolved
    (h : ∀ t, Lib.ReachedWhile (fun u => C u v) refs t → Answers ctx C validate quick t v) :
    ∃ b, (refs.filterMap (shapeOf ctx)).allM
        (fun shape => (validate quick shape v).map List.isEmpty) = some b ∧
      (b = true ↔ ∀ t ∈ refs, C t v) := by
  rw [filterMap_shapeOf hfound]
  have hanswers : ∀ shape, Lib.ReachedWhile (fun shape => C shape.id v) (refs.map (parseShape ctx))
      shape → ∃ b, (validate quick shape v).map List.isEmpty = some b ∧
        (b = true ↔ C shape.id v) := by
    intro shape hshape
    rcases hshape.of_map with ⟨t, ht, rfl⟩
    exact (h t ht).isEmpty
  rcases Lib.allM_spec hanswers with ⟨b, hb, hiff⟩
  exact ⟨b, hb, hiff.trans forall_mem_map⟩

theorem anyM_resolved
    (h : ∀ t, Lib.ReachedWhile (fun u => ¬ C u v) refs t → Answers ctx C validate quick t v) :
    ∃ b, (refs.filterMap (shapeOf ctx)).anyM
        (fun shape => (validate quick shape v).map List.isEmpty) = some b ∧
      (b = true ↔ ∃ t ∈ refs, C t v) := by
  rw [filterMap_shapeOf hfound]
  have hanswers : ∀ shape, Lib.ReachedWhile (fun shape => ¬ C shape.id v)
      (refs.map (parseShape ctx)) shape →
      ∃ b, (validate quick shape v).map List.isEmpty = some b ∧ (b = true ↔ C shape.id v) := by
    intro shape hshape
    rcases hshape.of_map with ⟨t, ht, rfl⟩
    exact (h t ht).isEmpty
  rcases Lib.anyM_spec hanswers with ⟨b, hb, hiff⟩
  exact ⟨b, hb, hiff.trans (by simp [parseShape])⟩

open Classical in
theorem countM_resolved (h : ∀ t ∈ refs, Answers ctx C validate quick t v) : Lib.countM
      (fun shape => (validate quick shape v).map List.isEmpty) (refs.filterMap (shapeOf ctx)) =
    some (refs.filter fun t => C t v).length := by
  rw [filterMap_shapeOf hfound, Lib.countM_spec (P := fun shape : Shape π => C shape.id v)
    (forall_mem_map.mpr fun t ht => (h t ht).isEmpty), filter_map, length_map]
  rfl

end

/-- A loop that reports one result for each value node without `P`. -/
theorem report_spec {Q P : ShaclTerm → Prop} {values : List ShaclTerm}
    {f : ShaclTerm → Option (List ValidationResult)} (hvalues : ∀ v, v ∈ values ↔ Q v)
    (h : ∀ v ∈ values, ∃ rs, f v = some rs ∧ (rs = [] ↔ P v)) :
    ∃ rs, Lib.gather false f values [] = some rs ∧ (rs = [] ↔ ∀ v, Q v → P v) := by
  rcases Lib.gather_spec false [] (fun v hv => h v hv.mem) with ⟨rs, hrs, hiff⟩
  exact ⟨rs, hrs, by rw [hiff]; simp [hvalues]⟩

section

variable {c : Constraint π} {s n : ShaclTerm} {values : List ShaclTerm} {quick : Bool}

/-- A value node counts if it conforms, and to none of the siblings if that is
    asked. -/
theorem counts_spec {ref v : ShaclTerm} {disjoint : Bool} {siblings : List ShaclTerm}
    (href : Answers ctx C validate quick ref v)
    (hfound : disjoint = true → ∀ t ∈ siblings, t ∈ discovered ctx)
    (hsiblings : disjoint = true → C ref v → ∀ t,
      Lib.ReachedWhile (fun u => ¬ C u v) siblings t → Answers ctx C validate quick t v) :
    ∃ b, counts ctx validate quick (parseShape ctx ref) disjoint siblings v = some b ∧
      (b = true ↔ Counts C ref disjoint siblings v) := by
  rcases href with ⟨rs, hrs, hiff⟩
  unfold counts Counts
  rw [hrs, ← hiff]
  cases rs with
  | cons r rs => exact ⟨false, rfl, by simp⟩
  | nil =>
    cases disjoint with
    | false => exact ⟨true, rfl, by simp⟩
    | true =>
      rcases anyM_resolved siblings (hfound rfl) (hsiblings rfl (hiff.mp rfl)) with ⟨b, hb, hany⟩
      refine ⟨!b, ?_, ?_⟩
      · simp [hb]
      · rw [Bool.not_eq_true', Bool.eq_false_iff, Ne, hany]
        simp

open Classical in
/-- The bounds of a qualified constraint, as it was read, say of the nodes it counts what
    the definition says. -/
def Constraint.CountsRight (ctx : Context π) (C : ShaclTerm → ShaclTerm → Prop) (s n : ShaclTerm)
    (values : List ShaclTerm) : Constraint π → Prop
  | .qualified ref minCount maxCount disjoint siblings =>
    let count : Int := (values.filter fun v => Counts C ref disjoint siblings v).length
    (0 < minCount → minCount ≤ count) ∧ (0 ≤ maxCount → count ≤ maxCount) ↔
      WithinCounts ctx s (Qualified ctx C s ref n).ncard
  | _ => True

/-- A constraint reports nothing exactly when it holds. -/
theorem evaluate_spec (hvalues : ∀ v, v ∈ values ↔ ValueNode ctx s n v)
    (hfound : ∀ t ∈ c.refs, t ∈ discovered ctx) (hcounts : c.CountsRight ctx C s n values)
    (hanswers : ∀ quick' t v, c.Consults C values quick quick' t v →
      Answers ctx C validate quick' t v) :
    ∃ rs, evaluate ctx validate quick (parseShape ctx s) n values c = some rs ∧
      (rs = [] ↔ c.Holds ctx C s n) := by
  cases c with
  | given c =>
    refine ⟨_, rfl, ?_⟩
    split
    · -- The placeholder stands for results that are there.
      rename_i hquick
      refine iff_of_false (cons_ne_nil _ _) fun hnil => ?_
      rw [Constraint.Holds] at hnil
      simp [parseShape, hnil] at hquick
    · exact Iff.rfl
  | and shapes =>
    refine report_spec hvalues fun v hv => ?_
    rcases allM_resolved shapes hfound (fun t ht => hanswers true t v (.and hv ht)) with
      ⟨b, hb, hiff⟩
    rw [hb, ← hiff]
    cases b with
    | true | false => exact ⟨_, rfl, by simp⟩
  | or shapes =>
    refine report_spec hvalues fun v hv => ?_
    rcases anyM_resolved shapes hfound (fun t ht => hanswers true t v (.or hv ht)) with
      ⟨b, hb, hiff⟩
    rw [hb, ← hiff]
    cases b with
    | true | false => exact ⟨_, rfl, by simp⟩
  | not ref =>
    simp only [evaluate, shapeOf_eq (hfound ref (by simp [Constraint.refs]))]
    refine report_spec hvalues fun v hv => ?_
    rcases hanswers true ref v (.not hv) with ⟨rs, hrs, hiff⟩
    rw [hrs, ← hiff]
    cases rs with
    | nil | cons r rs => exact ⟨_, rfl, by simp⟩
  | xone shapes =>
    refine report_spec hvalues fun v hv => ?_
    rw [countM_resolved shapes hfound (fun t ht => hanswers quick t v (.xone hv ht))]
    refine ⟨_, rfl, ?_⟩
    split_ifs with hone
    · simp [hone]
    · simp [hone]
  | node ref =>
    simp only [evaluate, shapeOf_eq (hfound ref (by simp [Constraint.refs]))]
    refine report_spec hvalues fun v hv => ?_
    rcases hanswers quick ref v (.node hv) with ⟨rs, hrs, hiff⟩
    rw [hrs, ← hiff]
    cases rs with
    | nil | cons r rs => exact ⟨_, rfl, by simp⟩
  | qualified ref minCount maxCount disjoint siblings =>
    have href : ref ∈ (Constraint.qualified (π := π) ref minCount maxCount disjoint
        siblings).refs := mem_cons_self
    have hsibling : disjoint = true → ∀ t ∈ siblings,
        t ∈ (Constraint.qualified (π := π) ref minCount maxCount disjoint siblings).refs := by
      intro hdisjoint t ht
      simp [Constraint.refs, hdisjoint, ht]
    have hcount := Lib.countM_spec fun v hv => counts_spec (hanswers quick ref v (.qualified hv))
      (fun hd t ht => hfound t (hsibling hd t ht))
      (fun hd href t ht => hanswers quick t v (hd ▸ .sibling hv href ht))
    simp only [evaluate, shapeOf_eq (hfound ref href)]
    rw [hcount]
    refine ⟨_, rfl, Iff.trans ?_ hcounts⟩
    rw [append_eq_nil_iff]
    refine and_congr ?_ ?_
    · split_ifs with hmin
      · simp; omega
      · simp; omega
    · split_ifs with hmax
      · simp; omega
      · simp; omega

end

end

/-! ## Where the validation follows the definition -/

/-- The value nodes the validation of a shape runs over. -/
def valueNodes {π : Type} (ctx : Context π) (s n : ShaclTerm) : List ShaclTerm :=
  if (parseShape ctx s).path.isSome then propertyValueNodes ctx (parseShape ctx s) n else [n]

section

variable {π : Type} (ctx : Context π) (C : ShaclTerm → ShaclTerm → Prop)

/-- The counts of a shape are read as they are: they fit an `int64`, and the maximum is not
    negative. -/
def CountsRead (s : ShaclTerm) : Prop :=
  ∀ m k, integerValue m = some k →
    (⟨s, shQualifiedMinCount, m⟩ ∈ ctx.shapes → -(2 ^ 63) ≤ k ∧ k < 2 ^ 63) ∧
    (⟨s, shQualifiedMaxCount, m⟩ ∈ ctx.shapes → 0 ≤ k ∧ k < 2 ^ 63)

/-- No other property shape of a parent has the qualified value shape of a disjoint shape, or
    no value node counts for it. -/
def SiblingsApart (s q n : ShaclTerm) : Prop :=
  ⟨s, shQualifiedValueShapesDisjoint, booleanTrue⟩ ∈ ctx.shapes →
    ⟨s, shQualifiedValueShape, q⟩ ∈ ctx.shapes → ∀ parent other,
    ⟨parent, shProperty, s⟩ ∈ ctx.shapes → ⟨parent, shProperty, other⟩ ∈ ctx.shapes →
    ⟨other, shQualifiedValueShape, q⟩ ∈ ctx.shapes → other = s ∨ Qualified ctx C s q n = ∅

/-- The validation of a node against a shape comes to a task. In a quick run nothing follows
    a failure. -/
def Runs (quick : Bool) (s n : ShaclTerm) : Task π → Prop :=
  Lib.ReachedWhile (fun task => quick = true → task.Holds ctx C s n)
    (tasks ctx (parseShape ctx s) (valueNodes ctx s n))

/-- The validation of a node against a shape asks for that of another. -/
def Consults (x y : Bool × ShaclTerm × ShaclTerm) : Prop :=
  ⟨x.2.1, shDeactivated, booleanTrue⟩ ∉ ctx.shapes ∧ ∃ task, Runs ctx C x.1 x.2.1 x.2.2 task ∧
    task.Consults C (valueNodes ctx x.2.1 x.2.2) x.1 y.1 y.2.1 y.2.2

/-- The defects are not met in the validation of a node against a shape. -/
structure Clear (quick : Bool) (s n : ShaclTerm) : Prop where
  path : ∀ p, ⟨s, shPath, p⟩ ∈ ctx.shapes →
    Lossless ctx.data (ctx.parsePath p) n (fun _ => True) ∧
      ¬ PathRel ctx.data (ctx.parsePath p) n .none
  qualified : ∀ q minCount maxCount disjoint siblings,
    Runs ctx C quick s n (.constraint (.qualified q minCount maxCount disjoint siblings)) →
      CountsRead ctx s ∧ SiblingsApart ctx C s q n

/-- Nor in any that it asks for, directly or not. -/
def Undisturbed (quick : Bool) (s n : ShaclTerm) : Prop :=
  ∀ y, ReflTransGen (Consults ctx C) (quick, s, n) y →
    ⟨y.2.1, shDeactivated, booleanTrue⟩ ∉ ctx.shapes → Clear ctx C y.1 y.2.1 y.2.2

variable {ctx C}

theorem Undisturbed.consults {quick quick' : Bool} {s n t v : ShaclTerm}
    (h : Undisturbed ctx C quick s n) (hstep : Consults ctx C (quick, s, n) (quick', t, v)) :
    Undisturbed ctx C quick' t v :=
  fun y hy => h y (.head hstep hy)

end

/-! ## What the parser reads -/

section

variable {π : Type} {ctx : Context π} {s n : ShaclTerm} (hwf : WellFormed ctx.shapes)
  (hs : Resource s)

include hwf hs

theorem flag_iff {p : String} (hp : .iri p ∈ [shDeactivated, shQualifiedValueShapesDisjoint]) :
    flag ctx s (.iri p) = true ↔ ⟨s, .iri p, booleanTrue⟩ ∈ ctx.shapes := by
  have hsingle := hwf.single (.iri p)
    (by simp only [mem_cons, not_mem_nil, or_false] at hp ⊢; tauto) s
  unfold flag
  constructor
  · intro hflag
    cases hobjects : objectsOf ctx.shapes s (.iri p) with
    | nil => simp [hobjects] at hflag
    | cons d rest =>
      have hd : ⟨s, .iri p, d⟩ ∈ ctx.shapes :=
        (mem_objectsOf_resource hs).mp (by rw [hobjects]; exact mem_cons_self)
      rcases hwf.booleans _ hp s d hd with rfl | rfl
      · exact hd
      · simp [hobjects, booleanFalse, value] at hflag
  · intro htrue
    rcases objectsOf_eq_cons hs htrue (fun w hw => hsingle _ w htrue hw) with ⟨rest, hrest⟩
    rw [hrest]
    rfl

omit hwf hs in
theorem parseInt_eq {m : ShaclTerm} {k : Int} (hk : integerValue m = some k)
    (hlow : -(2 ^ 63) ≤ k) (hhigh : k < 2 ^ 63) : parseInt m = k := by
  simp only [integerValue] at hk
  simp only [parseInt, parseInt64]
  by_cases hdigits : allDigits (skipSign (value m).toList) = true
  · rw [if_pos hdigits] at hk ⊢
    rw [Option.some.inj hk, if_pos ⟨hlow, hhigh⟩]
    rfl
  · rw [if_neg hdigits] at hk
    cases hk

/-- What is asked of a count is asked of the value of the property, if the default meets it. -/
theorem count_iff {p : String} (hp : .iri p ∈ [shQualifiedMinCount, shQualifiedMaxCount])
    {default : Int} {P Q : Int → Prop} (hdefault : P default)
    (h : ∀ m k, ⟨s, .iri p, m⟩ ∈ ctx.shapes → integerValue m = some k →
      (-(2 ^ 63) ≤ k ∧ k < 2 ^ 63) ∧ (P k ↔ Q k)) :
    P (count ctx s (.iri p) default) ↔
      ∀ m k, ⟨s, .iri p, m⟩ ∈ ctx.shapes → integerValue m = some k → Q k := by
  by_cases hm : ∃ m, ⟨s, .iri p, m⟩ ∈ ctx.shapes
  · rcases hm with ⟨m, hm⟩
    rcases hwf.integers _ hp s m hm with ⟨k, hk⟩
    have hsingle : ∀ w, ⟨s, .iri p, w⟩ ∈ ctx.shapes → w = m := fun w hw =>
      hwf.single (.iri p)
        (by simp only [mem_cons, not_mem_nil, or_false] at hp ⊢; tauto) s m w hm hw
    rcases objectsOf_eq_cons hs hm hsingle with ⟨rest, hrest⟩
    rcases h m k hm hk with ⟨hbounds, hiff⟩
    have hcount : count ctx s (.iri p) default = k := by
      rw [count, hrest]
      exact parseInt_eq hk hbounds.1 hbounds.2
    rw [hcount, hiff]
    refine ⟨fun hQ m' k' hm' hk' => ?_, fun hQ => hQ m k hm hk⟩
    rw [hsingle m' hm', hk] at hk'
    exact Option.some.inj hk' ▸ hQ
  · rw [not_exists] at hm
    rw [count, objectsOf_eq_nil hs hm]
    exact iff_of_true hdefault fun m _ hmem => absurd hmem (hm m)

theorem parseShape_path_of_mem {p : ShaclTerm} (hp : ⟨s, shPath, p⟩ ∈ ctx.shapes) :
    (parseShape ctx s).path = some (ctx.parsePath p) := by
  rcases objectsOf_eq_cons hs hp
    (fun w hw => hwf.single shPath (by simp) s p w hp hw) with ⟨rest, hrest⟩
  change (objectsOf ctx.shapes s shPath).head?.map ctx.parsePath = _
  unfold shPath
  rw [hrest]
  rfl

omit hwf in
theorem parseShape_path_of_not_mem (hp : ∀ p, ⟨s, shPath, p⟩ ∉ ctx.shapes) :
    (parseShape ctx s).path = none := by
  change (objectsOf ctx.shapes s shPath).head?.map ctx.parsePath = _
  unfold shPath
  rw [objectsOf_eq_nil hs hp]
  rfl

theorem mem_siblingShapes :
    t ∈ siblingShapes ctx s ↔ ∃ parent other, ⟨parent, shProperty, s⟩ ∈ ctx.shapes ∧
      ⟨parent, shProperty, other⟩ ∈ ctx.shapes ∧ other ≠ s ∧
      ⟨other, shQualifiedValueShape, t⟩ ∈ ctx.shapes := by
  simp only [siblingShapes, mem_flatMap, mem_filter, Bool.not_eq_true']
  constructor
  · rintro ⟨parent, hparent, other, ⟨hother, hne⟩, ht⟩
    have hparent := (mem_subjectsOf_resource hs).mp hparent
    have hother := (mem_objectsOf_resource (hwf.subjects _ hparent)).mp hother
    have hresource := hwf.refs shProperty (by simp [shapeRefs]) _ _ hother
    refine ⟨parent, other, hparent, hother, ?_, (mem_objectsOf_resource hresource).mp ht⟩
    rintro rfl
    cases hresource <;> simp [ShaclTerm.equal] at hne
  · rintro ⟨parent, other, hparent, hother, hne, ht⟩
    have hresource := hwf.refs shProperty (by simp [shapeRefs]) _ _ hother
    refine ⟨parent, (mem_subjectsOf_resource hs).mpr hparent, other,
      ⟨(mem_objectsOf_resource (hwf.subjects _ hparent)).mpr hother, ?_⟩,
      (mem_objectsOf_resource hresource).mpr ht⟩
    rw [Bool.eq_false_iff]
    intro heq
    refine hne ((equal_iff ?_).mp heq)
    cases hresource <;> simp

/-- The siblings of the definition are those that were collected, but for the qualified value
    shape itself. -/
theorem sibling_iff (hq : ⟨s, shQualifiedValueShape, q⟩ ∈ ctx.shapes) :
    Sibling ctx.shapes s q t ↔ t ∈ siblingShapes ctx s ∧ t ≠ q := by
  rw [mem_siblingShapes hwf hs]
  constructor
  · rintro ⟨⟨parent, other, hparent, hother, ht⟩, hne⟩
    refine ⟨⟨parent, other, hparent, hother, ?_, ht⟩, hne⟩
    rintro rfl
    exact hne (hwf.single shQualifiedValueShape (by simp) _ q t hq ht)
  · rintro ⟨⟨parent, other, hparent, hother, -, ht⟩, hne⟩
    exact ⟨⟨parent, other, hparent, hother, ht⟩, hne⟩

end

/-- A focus node, or a node of the data. -/
def Known (data : DataGraph) (focus n : ShaclTerm) : Prop :=
  n ∈ focus :: nodesOf data.triples ∧ n ≠ .none

section

variable {π : Type} {ctx : Context π} {C : ShaclTerm → ShaclTerm → Prop} {s : ShaclTerm}
  (hwf : WellFormed ctx.shapes) (hs : Resource s) {data : DataGraph}
  (hdata : ctx.data = data.triples) {focus : ShaclTerm} (hkeys : KeysApart data.triples focus)

include hwf hs hdata hkeys

/-- Where nothing is lost they are the value nodes of the definition, each once, and
    known. -/
theorem valueNodes_spec {quick : Bool} {n : ShaclTerm} (hn : Known data focus n)
    (hclear : Clear ctx C quick s n) :
    (valueNodes ctx s n).Nodup ∧ (∀ v, v ∈ valueNodes ctx s n ↔ ValueNode ctx s n v) ∧
      ∀ v ∈ valueNodes ctx s n, Known data focus v := by
  by_cases hp : ∃ p, ⟨s, shPath, p⟩ ∈ ctx.shapes
  · rcases hp with ⟨p, hp⟩
    have hvalues : valueNodes ctx s n = evalPath ctx.order data.triples (ctx.parsePath p) n := by
      simp only [valueNodes, propertyValueNodes, parseShape_path_of_mem hwf hs hp, hdata]
      rfl
    rcases hclear.path p hp with ⟨hlossless, hnone⟩
    rw [hdata] at hlossless hnone
    have hmem : ∀ v, v ∈ valueNodes ctx s n ↔ PathRel data.triples (ctx.parsePath p) n v := by
      intro v
      rw [hvalues, (evalPath_spec ctx.order data hkeys (ctx.parsePath p) hn.1).2 v]
      exact ⟨FoundRel.pathRel, hlossless.foundRel trivial⟩
    refine ⟨?_, fun v => ?_, fun v hv => ⟨?_, ?_⟩⟩
    · have hne := mt (hmem .none).mp hnone
      rw [hvalues] at hne ⊢
      exact nodup_evalPath ctx.order data hkeys _ hn.1 hn.2 hne
    · rw [hmem, ← hdata]
      constructor
      · intro hv
        exact .inl ⟨p, hp, hv⟩
      · rintro (⟨p', hp', hv⟩ | ⟨hnone, -⟩)
        · rw [hwf.single shPath (by simp) s p p' hp hp'] at hv
          exact hv
        · exact absurd hp (hnone p)
    · rw [hvalues] at hv
      exact mem_known hn.1 (mem_of_mem_evalPath ctx.order _ n v hv)
    · rintro rfl
      exact hnone ((hmem _).mp hv)
  · rw [not_exists] at hp
    have hvalues : valueNodes ctx s n = [n] := by
      simp only [valueNodes, parseShape_path_of_not_mem hs hp]
      rfl
    rw [hvalues]
    refine ⟨nodup_singleton n, fun v => ?_, by simpa using hn⟩
    rw [mem_singleton]
    constructor
    · intro hv
      exact .inr ⟨hp, hv⟩
    · rintro (⟨p, hmem, -⟩ | ⟨-, hv⟩)
      · exact absurd hmem (hp p)
      · exact hv

end

/-! ## The parsed constraints say what the definition says -/

theorem ncard_eq_length {α : Type} [DecidableEq α] {xs : List α} (hnodup : xs.Nodup) {S : Set α}
    (hmem : ∀ x, x ∈ xs ↔ x ∈ S) : S.ncard = xs.length := by
  have heq : S = ↑xs.toFinset := by
    ext x
    rw [coe_toFinset, Set.mem_ofPred_eq, hmem]
  rw [heq, Set.ncard_coe_finset, toFinset_card_of_nodup hnodup]

section

variable {π : Type} {ctx : Context π} {C : ShaclTerm → ShaclTerm → Prop} {s n : ShaclTerm}
  {values : List ShaclTerm} (hwf : WellFormed ctx.shapes) (hs : Resource s)

include hs

theorem forall_parseConstraints {P : Constraint π → Prop} :
    (∀ c ∈ parseConstraints ctx s, P c) ↔
      (∀ c ∈ ctx.before s ++ ctx.after s, P (.given c)) ∧
      (∀ l, ⟨s, shAnd, l⟩ ∈ ctx.shapes → P (.and (rdfList ctx.shapes l))) ∧
      (∀ l, ⟨s, shOr, l⟩ ∈ ctx.shapes → P (.or (rdfList ctx.shapes l))) ∧
      (∀ t, ⟨s, shNot, t⟩ ∈ ctx.shapes → P (.not t)) ∧
      (∀ l, ⟨s, shXone, l⟩ ∈ ctx.shapes → P (.xone (rdfList ctx.shapes l))) ∧
      (∀ t, ⟨s, shNode, t⟩ ∈ ctx.shapes → P (.node t)) ∧
      (∀ c ∈ parseQualified ctx s, P c) := by
  have hlookup : ∀ p v, v ∈ objectsOf ctx.shapes s (.iri p) ↔ ⟨s, .iri p, v⟩ ∈ ctx.shapes :=
    fun p v => mem_objectsOf_resource hs
  simp only [parseConstraints, forall_mem_append, forall_mem_map, shAnd, shOr, shNot,
    shXone, shNode, hlookup]
  tauto

include hwf

/-- A parsed constraint consults shapes that have a say. -/
theorem refers_of_mem_refs : ∀ c ∈ parseConstraints ctx s, ∀ t ∈ c.refs, Refers ctx.shapes s t := by
  have hmember : ∀ p ∈ shapeLists, ∀ l, ⟨s, p, l⟩ ∈ ctx.shapes →
      ∀ t ∈ rdfList ctx.shapes l, Refers ctx.shapes s t := by
    intro p hp l hl t ht
    rcases hwf.lists p hp s l hl with ⟨items, hitems, -⟩
    rw [rdfList_eq hitems] at ht
    exact .member hp hl hitems ht
  have href : ∀ p ∈ shapeRefs, ∀ t, ⟨s, p, t⟩ ∈ ctx.shapes →
      ∀ t' ∈ [t], Refers ctx.shapes s t' := by
    intro p hp t ht t' ht'
    rw [mem_singleton.mp ht']
    exact .ref hp ht
  rw [forall_parseConstraints hs]
  refine ⟨?_, ?_, ?_, ?_, ?_, ?_, ?_⟩
  · simp [Constraint.refs]
  · exact hmember _ (by simp [shapeLists])
  · exact hmember _ (by simp [shapeLists])
  · exact href _ (by simp [shapeRefs])
  · exact hmember _ (by simp [shapeLists])
  · exact href _ (by simp [shapeRefs])
  · simp only [parseQualified, forall_mem_map]
    intro q hq t ht
    have hq := (mem_objectsOf_resource hs).mp hq
    rcases mem_cons.mp ht with rfl | ht
    · exact .ref (p := shQualifiedValueShape) (by simp [shapeRefs]) hq
    · split_ifs at ht with hflag
      · have hdisjoint := (flag_iff hwf hs (by simp [shQualifiedValueShapesDisjoint])).mp hflag
        by_cases htq : t = q
        · subst htq
          exact .ref (p := shQualifiedValueShape) (by simp [shapeRefs]) hq
        · exact .sibling hdisjoint hq ((sibling_iff hwf hs hq).mpr ⟨ht, htq⟩)
      · cases ht

open Classical in
theorem length_counts (hnodup : values.Nodup) (hvalues : ∀ v, v ∈ values ↔ ValueNode ctx s n v)
    (hq : ⟨s, shQualifiedValueShape, q⟩ ∈ ctx.shapes) (hapart : SiblingsApart ctx C s q n) :
    (values.filter fun v => Counts C q (flag ctx s shQualifiedValueShapesDisjoint)
      (if flag ctx s shQualifiedValueShapesDisjoint then siblingShapes ctx s else []) v).length =
    (Qualified ctx C s q n).ncard := by
  refine (ncard_eq_length (hnodup.filter _) ?_).symm
  intro v
  have hflag : flag ctx s shQualifiedValueShapesDisjoint = true ↔
      ⟨s, shQualifiedValueShapesDisjoint, booleanTrue⟩ ∈ ctx.shapes :=
    flag_iff hwf hs (by simp [shQualifiedValueShapesDisjoint])
  rw [mem_filter, decide_eq_true_eq, hvalues]
  constructor
  · rintro ⟨hv, hqv, h⟩
    refine ⟨hv, hqv, fun hdisjoint t ht => ?_⟩
    have htrue := hflag.mpr hdisjoint
    refine h htrue t ?_
    rw [if_pos htrue]
    exact ((sibling_iff hwf hs hq).mp ht).1
  · intro hqualified
    refine ⟨hqualified.1, hqualified.2.1, fun htrue t ht => ?_⟩
    rw [if_pos htrue] at ht
    refine hqualified.2.2 (hflag.mp htrue) t ((sibling_iff hwf hs hq).mpr ⟨ht, ?_⟩)
    -- A node counts, so no other property shape has brought in `q` itself.
    rintro rfl
    rcases (mem_siblingShapes hwf hs).mp ht with ⟨parent, other, hparent, hother, hne, hto⟩
    rcases hapart (hflag.mp htrue) hq parent other hparent hother hto with heq | hempty
    · exact hne heq
    · rw [hempty] at hqualified
      exact hqualified

theorem countsRight_of_mem (hnodup : values.Nodup)
    (hvalues : ∀ v, v ∈ values ↔ ValueNode ctx s n v) :
    ∀ c ∈ parseConstraints ctx s, (∀ q minCount maxCount disjoint siblings,
      c = .qualified q minCount maxCount disjoint siblings →
        CountsRead ctx s ∧ SiblingsApart ctx C s q n) → c.CountsRight ctx C s n values := by
  rw [forall_parseConstraints hs]
  simp only [Constraint.CountsRight, implies_true, true_and]
  simp only [parseQualified, forall_mem_map]
  intro q hq hclear
  rcases hclear q _ _ _ _ rfl with ⟨hread, hapart⟩
  rw [length_counts hwf hs hnodup hvalues ((mem_objectsOf_resource hs).mp hq) hapart]
  refine and_congr (count_iff hwf hs (P := fun c => 0 < c → c ≤ _) (by simp [shQualifiedMinCount])
    (by omega) fun m k hm hk => ?_) (count_iff hwf hs (P := fun c => 0 ≤ c → _ ≤ c)
    (by simp [shQualifiedMaxCount]) (by omega) fun m k hm hk => ?_)
  · have hbounds := (hread m k hk).1 hm
    exact ⟨hbounds, by omega⟩
  · have hbounds := (hread m k hk).2 hm
    exact ⟨by omega, by omega⟩

/-- The constraints hold, and the property shapes, exactly when the definition says
    so. -/
theorem satisfied_iff :
    Satisfied ctx C s n ↔ (∀ c ∈ parseConstraints ctx s, c.Holds ctx C s n) ∧
      ∀ t, ⟨s, shProperty, t⟩ ∈ ctx.shapes → ∀ v, ValueNode ctx s n v → C t v := by
  have hlookup : ∀ q, q ∈ objectsOf ctx.shapes s shQualifiedValueShape ↔
      ⟨s, shQualifiedValueShape, q⟩ ∈ ctx.shapes := fun q => mem_objectsOf_resource hs
  rw [forall_parseConstraints hs]
  have hlist : ∀ p ∈ shapeLists, ∀ l, ⟨s, p, l⟩ ∈ ctx.shapes →
      IsList ctx.shapes l (rdfList ctx.shapes l) := by
    intro p hp l hl
    rcases hwf.lists p hp s l hl with ⟨items, hitems, -⟩
    rw [rdfList_eq hitems]
    exact hitems
  simp only [parseQualified, forall_mem_map, hlookup, Constraint.Holds]
  constructor
  · intro h
    refine ⟨⟨h.given, ?_, ?_, h.not, ?_, h.node, h.qualified⟩, h.property⟩
    · exact fun l hl => h.and l _ hl (hlist _ (by simp [shapeLists]) l hl)
    · exact fun l hl => h.or l _ hl (hlist _ (by simp [shapeLists]) l hl)
    · exact fun l hl => h.xone l _ hl (hlist _ (by simp [shapeLists]) l hl)
  · rintro ⟨⟨hgiven, hand, hor, hnot, hxone, hnode, hqualified⟩, hproperty⟩
    refine ⟨hgiven, hnode, hproperty, fun l items hl hitems => ?_, fun l items hl hitems => ?_,
      hnot, fun l items hl hitems => ?_, hqualified⟩
    all_goals rw [← rdfList_eq hitems]
    · exact hand l hl
    · exact hor l hl
    · exact hxone l hl

end

/-- Shapes that have a say are IRIs or blank nodes, and were discovered. -/
theorem Refers.resource (hwf : WellFormed g) (h : Refers g s t) : Resource t := by
  cases h with
  | ref hp ht => exact hwf.refs _ hp _ _ ht
  | member hp hl hlist ht =>
    rcases hwf.lists _ hp _ _ hl with ⟨items, hitems, hall⟩
    rw [hitems.unique hlist] at ht
    exact hall _ ht
  | sibling _ _ hsib =>
    rcases hsib with ⟨⟨_, _, _, _, ht⟩, _⟩
    exact hwf.refs shQualifiedValueShape (by simp [shapeRefs]) _ _ ht

theorem Refers.discovered {π : Type} {ctx : Context π} (h : Refers ctx.shapes s t) :
    t ∈ discovered ctx := by
  unfold Shacl.discovered
  have hobject : ∀ p ∈ shapeRefs, ∀ s, ⟨s, p, t⟩ ∈ ctx.shapes →
      t ∈ (ctx.shapes.filter fun t => objectPredicates.contains t.predicate).map
        fun t => t.object := by
    intro p hp s ht
    refine mem_map.mpr ⟨_, mem_filter.mpr ⟨ht, ?_⟩, rfl⟩
    revert hp
    simp only [shapeRefs, mem_cons, not_mem_nil, or_false]
    rintro (rfl | rfl | rfl | rfl) <;> rfl
  simp only [mem_append]
  cases h with
  | ref hp ht => exact .inl (.inr (hobject _ hp _ ht))
  | sibling _ _ hsib =>
    rcases hsib with ⟨⟨_, _, _, _, ht⟩, _⟩
    exact .inl (.inr (hobject shQualifiedValueShape (by simp [shapeRefs]) _ ht))
  | @member p l _ items hp hl hlist ht =>
    refine .inr (mem_flatMap.mpr ⟨⟨s, p, l⟩, mem_filter.mpr ⟨hl, ?_⟩, ?_⟩)
    · exact contains_iff_mem.mpr hp
    · rw [rdfList_eq hlist]
      exact ht

/-! ## The validation -/

section

/-- The shapes in progress have a say in `s`, so `s` is not one of them. -/
def Below (g : List ShaclTriple) (guard : List (ShaclTerm × ShaclTerm)) (s : ShaclTerm) : Prop :=
  ∀ e ∈ guard, TransGen (Refers g) e.1 s

variable {guard : List (ShaclTerm × ShaclTerm)}

theorem Below.cons (h : Below g guard s) (n : ShaclTerm) (hst : Refers g s t) :
    Below g ((s, n) :: guard) t := by
  intro e he
  rcases mem_cons.mp he with rfl | he
  · exact .single hst
  · exact .tail (h e he) hst

theorem Below.not_mem (hacyclic : NonRecursive g) (h : Below g guard s) (n : ShaclTerm) :
    (s, n) ∉ guard :=
  fun hmem => hacyclic s (h _ hmem)

variable {π : Type} {ctx : Context π} {C : ShaclTerm → ShaclTerm → Prop} {data : DataGraph}
  {focus : ShaclTerm} (hwf : WellFormed ctx.shapes) (hC : Conformance ctx C)
  (hdata : ctx.data = data.triples) (hkeys : KeysApart data.triples focus)

include hwf

theorem deactivated_iff (hs : Resource s) :
    (parseShape ctx s).deactivated = true ↔ ⟨s, shDeactivated, booleanTrue⟩ ∈ ctx.shapes :=
  flag_iff hwf hs (by simp [shDeactivated])

variable {quick : Bool} {n : ShaclTerm}
  {validateShape validateProperty : Bool → Shape π → ShaclTerm → Option (List ValidationResult)}

variable (ctx validateShape validateProperty quick) in
/-- The two loops over the constraints and the nested property shapes end, and report
    nothing exactly when `P` holds. -/
def LoopsAnswer (s n : ShaclTerm) (P : Prop) : Prop :=
  ∃ rs, Lib.gather quick (runTask ctx validateShape validateProperty quick (parseShape ctx s) n
      (valueNodes ctx s n)) (tasks ctx (parseShape ctx s) (valueNodes ctx s n)) [] = some rs ∧
    (rs = [] ↔ P)

include hC hdata hkeys

/-- The loops, given that the shapes consulted are answered. -/
theorem gather_tasks_spec (hs : Resource s) (hn : Known data focus n)
    (hclear : Clear ctx C quick s n)
    (hshape : ∀ c quick' t v, Runs ctx C quick s n (.constraint c) →
      c.Consults C (valueNodes ctx s n) quick quick' t v → Answers ctx C validateShape quick' t v)
    (hproperty : ∀ t v, Runs ctx C quick s n (.property (parseShape ctx t) v) →
      Answers ctx C validateProperty quick t v) :
    LoopsAnswer ctx quick validateShape validateProperty s n (Satisfied ctx C s n) := by
  rcases valueNodes_spec hwf hs hdata hkeys hn hclear with ⟨hnodup, hvalues, -⟩
  have hproperties : ∀ t, t ∈ (parseShape ctx s).properties ↔ ⟨s, shProperty, t⟩ ∈ ctx.shapes :=
    fun t => mem_objectsOf_resource hs
  have htasks : ∀ task, Runs ctx C quick s n task →
      ∃ rs, runTask ctx validateShape validateProperty quick (parseShape ctx s) n
        (valueNodes ctx s n) task = some rs ∧ (rs = [] ↔ task.Holds ctx C s n) := by
    intro task htask
    rcases mem_append.mp htask.mem with hc | hp
    · rcases mem_map.mp hc with ⟨c, hmem, rfl⟩
      have hrefs := refers_of_mem_refs hwf hs c hmem
      refine evaluate_spec hvalues (fun t ht => (hrefs t ht).discovered) ?_
        (fun quick' t v => hshape c quick' t v htask)
      refine countsRight_of_mem hwf hs hnodup hvalues c hmem ?_
      rintro q minCount maxCount disjoint siblings rfl
      exact hclear.qualified q minCount maxCount disjoint siblings htask
    · rcases mem_flatMap.mp hp with ⟨ps, hps, hnode⟩
      rcases mem_map.mp (mem_filter.mp hps).1 with ⟨t, -, rfl⟩
      rcases mem_map.mp hnode with ⟨v, -, rfl⟩
      exact hproperty t v htask
  rcases Lib.gather_spec quick [] htasks with ⟨rs, hrs, hiff⟩
  refine ⟨rs, hrs, ?_⟩
  rw [hiff, satisfied_iff hwf hs, tasks, forall_mem_append, forall_mem_map]
  simp only [true_and, ← hvalues]
  refine and_congr Iff.rfl ?_
  constructor
  · intro h t ht v hv
    -- Every node conforms to a deactivated property shape, which the loop skips.
    have hresource := hwf.refs shProperty (by simp [shapeRefs]) _ _ ht
    by_cases hactive : (parseShape ctx t).deactivated = true
    · exact (hC t v).mpr (.inl ((deactivated_iff hwf hresource).mp hactive))
    · refine h (.property (parseShape ctx t) v) (mem_flatMap.mpr ⟨parseShape ctx t,
        mem_filter.mpr ⟨mem_map_of_mem ((hproperties t).mpr ht), ?_⟩,
        mem_map_of_mem hv⟩)
      simpa using hactive
  · intro h task htask
    rcases mem_flatMap.mp htask with ⟨ps, hps, hnode⟩
    rcases mem_map.mp (mem_filter.mp hps).1 with ⟨t, ht, rfl⟩
    rcases mem_map.mp hnode with ⟨v, hv, rfl⟩
    exact h t ((hproperties t).mp ht) v hv

omit hwf hC hdata hkeys in
/-- What the loops come to: a constraint of the shape, or a nested property shape that is
    not deactivated, at a value node. -/
theorem Runs.cases (hs : Resource s) {task : Task π}
    (h : Runs ctx C quick s n task) :
    (∃ c ∈ parseConstraints ctx s, task = .constraint c) ∨
      ∃ t v, task = .property (parseShape ctx t) v ∧ ⟨s, shProperty, t⟩ ∈ ctx.shapes ∧
        (parseShape ctx t).deactivated = false ∧ v ∈ valueNodes ctx s n := by
  rcases mem_append.mp h.mem with hc | hp
  · rcases mem_map.mp hc with ⟨c, hmem, rfl⟩
    exact .inl ⟨c, hmem, rfl⟩
  · rcases mem_flatMap.mp hp with ⟨ps, hps, hnode⟩
    rcases mem_filter.mp hps with ⟨hps, hactive⟩
    rcases mem_map.mp hps with ⟨t, ht, rfl⟩
    rcases mem_map.mp hnode with ⟨v, hv, rfl⟩
    exact .inr ⟨t, v, rfl, (mem_objectsOf_resource hs).mp ht, by simpa using hactive, hv⟩

/-- The loops of an active shape answer as the definition does, given that the calls for
    the shapes it refers to do. -/
theorem gather_body_spec (hs : Resource s) (hactive : (parseShape ctx s).deactivated = false)
    (hn : Known data focus n) (hundisturbed : Undisturbed ctx C quick s n)
    (hshape : ∀ quick' t v, Refers ctx.shapes s t → Known data focus v →
      Undisturbed ctx C quick' t v → Answers ctx C validateShape quick' t v)
    (hproperty : ∀ t v, Refers ctx.shapes s t → (∃ p, ⟨t, shPath, p⟩ ∈ ctx.shapes) →
      (parseShape ctx t).deactivated = false → Known data focus v →
      Undisturbed ctx C quick t v → Answers ctx C validateProperty quick t v) :
    LoopsAnswer ctx quick validateShape validateProperty s n (C s n) := by
  have hdeactivated : ⟨s, shDeactivated, booleanTrue⟩ ∉ ctx.shapes := by
    rw [← deactivated_iff hwf hs, hactive]
    exact Bool.false_ne_true
  have hiff : C s n ↔ Satisfied ctx C s n := by
    rw [hC s n, or_iff_right hdeactivated]
  have hclear : Clear ctx C quick s n := hundisturbed _ .refl hdeactivated
  rcases valueNodes_spec hwf hs hdata hkeys hn hclear with ⟨-, -, hknown⟩
  rw [hiff]
  refine gather_tasks_spec hwf hC hdata hkeys hs hn hclear ?_ ?_
  · intro c quick' t v hruns hc
    rcases hruns.cases hs with ⟨c', hmem, heq⟩ | ⟨t', v', heq, -⟩
    · cases heq
      exact hshape quick' t v (refers_of_mem_refs hwf hs c hmem t hc.mem.1) (hknown v hc.mem.2)
        (hundisturbed.consults ⟨hdeactivated, _, hruns, hc⟩)
    · cases heq
  · intro t v hruns
    rcases hruns.cases hs with ⟨c, -, heq⟩ | ⟨t', v', heq, ht, hactive, hv⟩
    · cases heq
    · rw [Task.property.injEq] at heq
      rcases heq with ⟨heq, rfl⟩
      have hid : t = t' := congrArg Shape.id heq
      subst hid
      exact hproperty t v (.ref (by simp [shapeRefs]) ht) (hwf.paths s t ht) hactive
        (hknown v hv) (hundisturbed.consults ⟨hdeactivated, _, hruns, rfl, rfl, rfl⟩)

variable (hacyclic : NonRecursive ctx.shapes)

include hacyclic

/-- With fuel for two calls a rank, the validation answers as the definition does, if
    it is not disturbed. The recursion guard never fires. -/
theorem validateShapeOnNode_spec {rank : ShaclTerm → Nat}
    (hrank : ∀ s t, Refers ctx.shapes s t → rank t < rank s) : ∀ k,
    (∀ quick s n, rank s < k → Resource s → Known data focus n → Undisturbed ctx C quick s n →
      ∀ fuel guard, 2 * k ≤ fuel → Below ctx.shapes guard s →
      Answers ctx C (validateShapeOnNode ctx fuel guard) quick s n) ∧
    (∀ quick s n, rank s < k → Resource s → (∃ p, ⟨s, shPath, p⟩ ∈ ctx.shapes) →
      (parseShape ctx s).deactivated = false → Known data focus n → Undisturbed ctx C quick s n →
      ∀ fuel guard, 2 * k ≤ fuel + 1 → Below ctx.shapes guard s →
      Answers ctx C (validatePropertyShape ctx fuel guard) quick s n) := by
  intro k
  induction k with
  | zero => exact ⟨fun _ s _ h => by omega, fun _ s _ h => by omega⟩
  | succ k ih =>
    rcases ih with ⟨ihshape, ihproperty⟩
    -- The body of both functions, one level further down.
    have hbody : ∀ quick s n, rank s < k + 1 → Resource s →
        (parseShape ctx s).deactivated = false → Known data focus n →
        Undisturbed ctx C quick s n → ∀ fuel guard, 2 * k ≤ fuel → Below ctx.shapes guard s →
        LoopsAnswer ctx quick (validateShapeOnNode ctx fuel ((s, n) :: guard))
          (validatePropertyShape ctx fuel ((s, n) :: guard)) s n (C s n) := by
      intro quick s n hlt hs hactive hn hundisturbed fuel guard hfuel hbelow
      refine gather_body_spec hwf hC hdata hkeys hs hactive hn hundisturbed ?_ ?_
      · intro quick' t v href hv hcalm
        have hfall := hrank s t href
        exact ihshape quick' t v (by omega) (href.resource hwf) hv hcalm fuel _ hfuel
          (hbelow.cons n href)
      · intro t v href hpath hactive hv hcalm
        have hfall := hrank s t href
        exact ihproperty quick t v (by omega) (href.resource hwf) hpath hactive hv hcalm fuel _
          (by omega) (hbelow.cons n href)
    -- A shape with a path is validated as a property shape.
    refine (fun hprop => ⟨?_, hprop⟩) ?_
    · intro quick s n hlt hs hpath hactive hn hundisturbed fuel guard hfuel hbelow
      rcases hpath with ⟨p, hp⟩
      have hvalues : valueNodes ctx s n = propertyValueNodes ctx (parseShape ctx s) n := by
        rw [valueNodes, parseShape_path_of_mem hwf hs hp]
        rfl
      cases fuel with
      | zero => omega
      | succ fuel =>
        rw [Answers, validatePropertyShape, parseShape_id, if_neg (hbelow.not_mem hacyclic n),
          ← hvalues]
        exact hbody quick s n hlt hs hactive hn hundisturbed fuel guard (by omega) hbelow
    intro quick s n hlt hs hn hundisturbed fuel guard hfuel hbelow
    cases fuel with
    | zero => omega
    | succ fuel =>
      rw [Answers, validateShapeOnNode, parseShape_id]
      by_cases hactive : (parseShape ctx s).deactivated = true
      · rw [if_pos hactive]
        have hconforms : C s n := (hC s n).mpr (.inl ((deactivated_iff hwf hs).mp hactive))
        exact ⟨[], rfl, by simp [hconforms]⟩
      · rw [if_neg hactive]
        rw [Bool.not_eq_true] at hactive
        by_cases hpath : ∃ p, ⟨s, shPath, p⟩ ∈ ctx.shapes
        · rcases hpath with ⟨p, hp⟩
          rw [if_pos (by rw [parseShape_path_of_mem hwf hs hp]; rfl)]
          exact hprop quick s n hlt hs ⟨p, hp⟩ hactive hn hundisturbed fuel guard (by omega) hbelow
        · rw [not_exists] at hpath
          have hnone := parseShape_path_of_not_mem hs hpath
          have hvalues : valueNodes ctx s n = [n] := by
            rw [valueNodes, hnone]
            rfl
          rw [if_neg (by rw [hnone]; simp), if_neg (hbelow.not_mem hacyclic n), ← hvalues]
          exact hbody quick s n hlt hs hactive hn hundisturbed fuel guard (by omega) hbelow

end

/-- A parent with two property shapes on the same property: the thumb asks for one
    value of the shape `A` that is of no sibling shape, and the finger has the
    qualified value shape `second`. -/
def handShapes (second : String) : List ShaclTriple :=
  [⟨.iri "Hand", shProperty, .iri "Thumb"⟩, ⟨.iri "Hand", shProperty, .iri "Finger"⟩,
   ⟨.iri "Thumb", shPath, .iri "digit"⟩, ⟨.iri "Finger", shPath, .iri "digit"⟩,
   ⟨.iri "Thumb", shQualifiedValueShape, .iri "A"⟩,
   ⟨.iri "Finger", shQualifiedValueShape, .iri second⟩,
   ⟨.iri "Thumb", shQualifiedMinCount, .literal "1" "http://www.w3.org/2001/XMLSchema#integer" ""⟩,
   ⟨.iri "Thumb", shQualifiedValueShapesDisjoint, booleanTrue⟩]

/-- A hand with one digit. -/
def handData : DataGraph where
  triples := [⟨.iri "hand", .iri "digit", .iri "d"⟩]
  once := by simp
  predicates := by simp

/-- No constraint stands by itself, and paths are predicates. -/
def handContext (second : String) : Context Empty where
  order := asFilled
  data := handData.triples
  shapes := handShapes second
  parsePath := .predicate
  before := fun _ => []
  after := fun _ => []
  report := fun c => c.elim
  isClass := fun c => c.elim

theorem wellFormed_handShapes : ∀ second ∈ ["A", "B"], WellFormed (handShapes second) := by
  intro second hsecond
  -- Everything but the lists, of which there are none, is a check of the triples.
  have hcheck : ∀ second ∈ ["A", "B"], ∀ t ∈ handShapes second,
      Resource t.subject ∧ (t.predicate ∈ shapeRefs → Resource t.object) ∧
      t.predicate ∉ shapeLists ∧
      (t.predicate ≠ shProperty → ∀ u ∈ handShapes second, u.subject = t.subject →
        u.predicate = t.predicate → u.object = t.object) ∧
      (t.predicate ∈ [shDeactivated, shQualifiedValueShapesDisjoint] → t.object = booleanTrue) ∧
      (t.predicate ∈ [shQualifiedMinCount, shQualifiedMaxCount] → integerValue t.object = some 1) ∧
      (t.predicate = shProperty → ⟨t.object, shPath, .iri "digit"⟩ ∈ handShapes second) := by
    decide +kernel
  have hcheck := hcheck second hsecond
  refine ⟨fun t ht => (hcheck t ht).1, fun p hp s t ht => (hcheck _ ht).2.1 hp,
    fun p hp s l hl => absurd hp (hcheck _ hl).2.2.1, ?_, ?_, ?_, ?_⟩
  · intro p hp s v w hv hw
    refine (hcheck _ hv).2.2.2.1 ?_ _ hw rfl rfl
    rintro rfl
    exact absurd hp (by decide +kernel)
  · exact fun p hp s v hv => .inl ((hcheck _ hv).2.2.2.2.1 hp)
  · exact fun p hp s v hv => ⟨1, (hcheck _ hv).2.2.2.2.2.1 hp⟩
  · exact fun s t ht => ⟨_, (hcheck _ ht).2.2.2.2.2.2 rfl⟩

/-- The hand is above its digits, and these above what they ask for. -/
def handRank (s : ShaclTerm) : Nat :=
  if s = .iri "Hand" then 2 else if s ∈ [.iri "Thumb", .iri "Finger"] then 1 else 0

theorem nonRecursive_handShapes : ∀ second ∈ ["A", "B"], NonRecursive (handShapes second) := by
  intro second hsecond
  have hcheck : ∀ second ∈ ["A", "B"], ∀ t ∈ handShapes second, t.predicate ∉ shapeLists ∧
      (t.predicate ∈ shapeRefs → handRank t.object < handRank t.subject) ∧
      (t.predicate = shQualifiedValueShape → handRank t.object = 0) ∧
      (t.predicate = shQualifiedValueShapesDisjoint → 0 < handRank t.subject) := by
    decide +kernel
  have hcheck := hcheck second hsecond
  refine nonRecursive_of_rank handRank ?_
  intro s t h
  cases h with
  | ref hp ht => exact (hcheck _ ht).2.1 hp
  | member hp hl => exact absurd hp (hcheck _ hl).1
  | sibling hdisjoint _ hsib =>
    rcases hsib with ⟨⟨_, _, _, _, ht⟩, _⟩
    have hbelow := (hcheck _ ht).2.2.1 rfl
    have habove := (hcheck _ hdisjoint).2.2.2 rfl
    dsimp only at hbelow habove
    omega

/-- With two different qualified value shapes nothing goes wrong anywhere. -/
theorem clear_hand (C : ShaclTerm → ShaclTerm → Prop) (quick : Bool) (s n : ShaclTerm) :
    Clear (handContext "B") C quick s n := by
  have hcheck : ∀ t ∈ handShapes "B", t.predicate ≠ shQualifiedMaxCount ∧
      (t.predicate = shQualifiedMinCount → integerValue t.object = some 1) ∧
      ∀ u ∈ handShapes "B", t.predicate = shQualifiedValueShape →
        u.predicate = shQualifiedValueShape → u.object = t.object → u.subject = t.subject := by
    decide +kernel
  refine ⟨fun p _ => ⟨trivial, by simp [handContext, handData, PathRel]⟩, ?_⟩
  intro q minCount maxCount disjoint siblings _
  refine ⟨fun m k hk => ⟨fun hm => ?_, fun hm => absurd rfl (hcheck _ hm).1⟩, ?_⟩
  · have hone := (hcheck _ hm).2.1 rfl
    rw [hk, Option.some.injEq] at hone
    omega
  · exact fun _ hq _ other _ _ hother => .inl ((hcheck _ hq).2.2 _ hother rfl rfl rfl)

end Shacl

end GoRdf
