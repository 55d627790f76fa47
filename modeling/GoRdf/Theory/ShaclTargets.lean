import GoRdf.Core.ShaclTargets
import GoRdf.Theory.ShaclShapes

/-!
# Class Targets, Lists and SPARQL Targets

Three questions that are answered by a walk over the data graph, or by a loop over
a map.

The instances of a class are searched for downwards from the class, breadth
first, and a node is tested for it upwards from its types, depth first. Both are
the same chains of `rdfs:subClassOf`, read in opposite directions.

Whether a node is a list is found out by following the first `rdf:rest` of each
cell. More values than one are not noticed, so the answer is right if there is
no cell on the way that has them.

A SPARQL target takes one binding out of each row. Which one is up to the order in
which the map is visited, so the rows may bind nothing but one value.

## Main definitions

* `SubClass`: A chain of `rdfs:subClassOf`.
* `RestOf`: From a cell to the rest of its list.
* `FirstRest`: From a cell that has a value to the first rest listed for it.
* `Visits`: The orders in which rows can be visited.

## Theorems

* `targetClass_iff_hasType`: The targets of a class are the nodes that have it as type.
* `isWellFormedList_iff`: When the test for a list is right.
* `firstBindings_iff`: When the first bindings are the values of one variable.
-/

namespace GoRdf

open List Relation

namespace Shacl

variable {g : List ShaclTriple} {a b c n v : ShaclTerm} {p : String} {fuel : Nat}

/-! ## Walks -/

/-- The objects of the graph. -/
def objects (g : List ShaclTriple) : List ShaclTerm :=
  g.map fun t => t.object

theorem mem_objects_of_mem_objectsOf {p : ShaclTerm} (h : v ∈ objectsOf g a p) : v ∈ objects g := by
  rw [objectsOf, List.mem_map] at h
  obtain ⟨t, ht, rfl⟩ := h
  exact mem_map_of_mem (mem_filter.mp ht).1

/-- A walk from an object of the graph along objects of the graph returns: there are not
    more keys than triples. -/
theorem descend_isSome {σ : Type} {next : ShaclTerm → List ShaclTerm}
    {found : ShaclTerm → Bool} {enter : ShaclTerm → σ → σ}
    (hnext : ∀ a, ∀ b ∈ next a, b ∈ objects g) (hn : g.length < fuel) {a : ShaclTerm}
    (ha : a ∈ objects g) (s : σ) :
    (Lib.descend ShaclTerm.termKey next found enter fuel a [] s).isSome := by
  let U : Finset (List Char) := ((objects g).map ShaclTerm.termKey).toFinset
  have hU : ∀ b ∈ objects g, b.termKey ∈ U := fun b hb =>
    mem_toFinset.mpr (mem_map_of_mem hb)
  have hcard : (Lib.unmarked U []).card < fuel := by
    have hle : U.card ≤ g.length := by
      refine (toFinset_card_le _).trans ?_
      rw [length_map, objects, length_map]
    exact ((Finset.card_filter_le U _).trans hle).trans_lt hn
  obtain ⟨r, hr⟩ := Lib.descend_returns (fun a b hb => hU b (hnext a b hb)) fuel a [] s (hU a ha)
    hcard
  rw [hr]
  rfl

theorem isSome_isSubClassOf (hn : g.length < fuel) {sub : ShaclTerm} (h : sub ∈ objects g)
    (super : ShaclTerm) : (isSubClassOf g fuel sub super).isSome := by
  rw [isSubClassOf, Option.isSome_map]
  exact descend_isSome (fun _ _ hb => mem_objects_of_mem_objectsOf hb) hn h ()

theorem equal_resource_iff (hc : Resource c) : a.equal c = true ↔ a = c := by
  cases hc <;> cases a <;> simp [ShaclTerm.equal]

/-- A walk to a resource finds it exactly if it can be reached. -/
theorem descend_resource_iff {next : ShaclTerm → List ShaclTerm} (hc : Resource c)
    (hnext : ∀ a, ¬ Resource a → next a = []) {r : Bool × List (List Char) × Unit}
    (h : Lib.descend ShaclTerm.termKey next (fun a => a.equal c) (fun _ s => s) fuel a [] () =
      some r) : r.1 = true ↔ ReflTransGen (fun a b => b ∈ next a) a c := by
  have hno : ∀ a, ¬ Resource a → a.equal c = false := fun a ha =>
    Bool.eq_false_iff.mpr fun heq => ha ((equal_resource_iff hc).mp heq ▸ hc)
  rw [Lib.descend_iff ?_ h]
  · simp only [equal_resource_iff hc, exists_eq_right]
  · intro a b hkey
    by_cases ha : Resource a
    · rw [ha.eq_of_termKey hkey.symm]
      exact ⟨rfl, rfl⟩
    · by_cases hb : Resource b
      · rw [hb.eq_of_termKey hkey]
        exact ⟨rfl, rfl⟩
      · rw [hno a ha, hno b hb, hnext a ha, hnext b hb]
        exact ⟨rfl, rfl⟩

section

variable (hg : ∀ t ∈ g, Resource t.subject)

include hg

/-- Where only resources are subjects, a key tells the subject. -/
theorem mem_objectsOf_iff : v ∈ objectsOf g a (.iri p) ↔ ⟨a, .iri p, v⟩ ∈ g := by
  by_cases ha : Resource a
  · exact mem_objectsOf_resource ha
  · simp only [objectsOf, mem_map, mem_filter, decide_eq_true_eq]
    constructor
    · rintro ⟨t, ⟨ht, hkey, -⟩, -⟩
      rw [(hg t ht).eq_of_indexKey hkey.symm] at ha
      exact absurd (hg t ht) ha
    · exact fun h => absurd (hg _ h) ha

theorem first_eq_some (h : first g a (.iri p) = some v) : ⟨a, .iri p, v⟩ ∈ g :=
  (mem_objectsOf_iff hg).mp (mem_of_head? h)

/-! ## Classes -/

/-- The one class is the other, or is below it. -/
def SubClass (g : List ShaclTriple) : ShaclTerm → ShaclTerm → Prop :=
  ReflTransGen fun a b => ⟨a, rdfsSubClassOf, b⟩ ∈ g

variable (hc : Resource c)

include hc

theorem hasType_iff (hfuel : g.length < fuel) (n : ShaclTerm) :
    ∃ b, hasType g fuel n c = some b ∧
      (b = true ↔ ∃ t, ⟨n, rdfTypeIri, t⟩ ∈ g ∧ SubClass g t c) := by
  simp only [rdfTypeIri, ← mem_objectsOf_iff hg]
  refine Lib.anyM_spec fun t ht => ?_
  split_ifs with heq
  · rw [(equal_resource_iff hc).mp heq]
    exact ⟨true, rfl, fun _ => .refl, fun _ => rfl⟩
  · obtain ⟨b, hb⟩ := Option.isSome_iff_exists.mp
      (isSome_isSubClassOf hfuel (mem_objects_of_mem_objectsOf ht.mem) c)
    refine ⟨b, hb, ?_⟩
    obtain ⟨r, hr, rfl⟩ := Option.map_eq_some_iff.mp hb
    rw [descend_resource_iff hc ?_ hr]
    · simp only [rdfsSubClassOf, mem_objectsOf_iff hg]
      rfl
    · intro a ha
      refine eq_nil_iff_forall_not_mem.mpr fun v hv => ha ?_
      exact hg _ ((mem_objectsOf_iff hg).mp hv)

theorem SubClass.resource (h : SubClass g a c) : Resource a := by
  rcases h.cases_head with rfl | ⟨b, hab, -⟩
  · exact hc
  · exact hg _ hab

/-- The search downwards goes along the chains. -/
theorem reflTransGen_subjectsOf_iff :
    ReflTransGen (fun a b => b ∈ subjectsOf g rdfsSubClassOf a) c a ↔ SubClass g a c := by
  constructor
  · intro h
    induction h with
    | refl => exact .refl
    | tail _ hab ih => exact .head ((mem_subjectsOf_resource (ih.resource hg hc)).mp hab) ih
  · intro h
    induction h using ReflTransGen.head_induction_on with
    | refl => exact .refl
    | head hab hbc ih =>
      exact ih.tail ((mem_subjectsOf_resource (SubClass.resource hg hc hbc)).mpr hab)

end

/-- Only subjects are found, so the search ends in time. -/
theorem exploring_subClasses (g : List ShaclTriple) (cls : ShaclTerm) :
    let st := Lib.Frontier.advance ShaclTerm.termKey (subjectsOf g rdfsSubClassOf)
      (2 * g.length + 1) ⟨[cls.termKey], [], [cls]⟩
    Lib.Exploring ShaclTerm.termKey (subjectsOf g rdfsSubClassOf) cls st ∧
      st.queue = [] := by
  rcases hdata : g with _ | ⟨t, ts⟩
  · exact ⟨exploring_others _ cls, rfl⟩
  · rw [← hdata]
    let subjects := g.map fun t => t.subject
    let U := ((cls :: subjects).map ShaclTerm.termKey).toFinset
    have hsubject : ∀ a b, b ∈ subjectsOf g rdfsSubClassOf a → b ∈ subjects := by
      intro a b hb
      obtain ⟨t, ht, rfl⟩ := mem_map.mp hb
      exact mem_map_of_mem (mem_filter.mp ht).1
    -- The keys that can be met: that of the class, and those of subjects.
    have hU : ∀ a, ReflTransGen (fun a b => b ∈ subjectsOf g rdfsSubClassOf a) cls a →
        a.termKey ∈ U := by
      intro a ha
      refine mem_toFinset.mpr (mem_map_of_mem ?_)
      rcases ha.cases_tail with rfl | ⟨b, -, hab⟩
      · exact mem_cons_self
      · exact mem_cons_of_mem _ (hsubject b a hab)
    have hcard : U.card ≤ g.length + 1 := by
      refine (toFinset_card_le _).trans ?_
      rw [length_map, length_cons, length_map]
    have hlen : 1 ≤ g.length := by
      rw [hdata, length_cons]
      omega
    refine (Lib.Exploring.start [] (by simp) nodup_nil).advance hU ?_
    dsimp only [length_cons, length_nil]
    omega

theorem mem_subClasses_iff (hg : ∀ t ∈ g, Resource t.subject) (hc : Resource c) :
    a ∈ c :: subClasses g c ↔ SubClass g a c := by
  obtain ⟨hexp, hqueue⟩ := exploring_subClasses g c
  have hchain := @reflTransGen_subjectsOf_iff g
  rw [← hchain hg hc, mem_cons]
  constructor
  · rintro (rfl | ha)
    · exact .refl
    · exact hexp.reached a ha
  · exact hexp.complete hqueue fun a b _ hb hkey =>
      (((hchain hg hc).mp hb).resource hg hc).eq_of_termKey hkey

/-- The targets of a class are the nodes that have it as type, each once. -/
theorem targetClass_iff_hasType (hg : ∀ t ∈ g, Resource t.subject) (hc : Resource c)
    (hfuel : g.length < fuel) :
    (resolveTargets g [.cls c]).Nodup ∧
      ∀ n, n ∈ resolveTargets g [.cls c] ↔ hasType g fuel n c = some true := by
  have hoffer : ∀ n, n ∈ [Target.cls c].flatMap (targetNodes g) ↔
      ∃ t, ⟨n, rdfTypeIri, t⟩ ∈ g ∧ SubClass g t c := by
    intro n
    rw [flatMap_singleton, targetNodes, mem_flatMap]
    refine exists_congr fun t => ?_
    rw [mem_subClasses_iff hg hc, and_comm]
    exact and_congr_left fun ht => mem_subjectsOf_resource (ht.resource hg hc)
  refine ⟨(Lib.nodup_fresh _ []).of_map _, fun n => ?_⟩
  obtain ⟨b, hb, hiff⟩ := hasType_iff hg hc hfuel n
  rw [hb, Option.some.injEq, hiff, ← hoffer, resolveTargets, Lib.mem_fresh_iff]
  · simp
  · intro a ha b hb hkey
    obtain ⟨t, ht, -⟩ := (hoffer b).mp hb
    exact (hg _ ht).eq_of_indexKey hkey

/-- Two classes, each below the other, and an instance of one. -/
def classCycle : List ShaclTriple :=
  [⟨.iri "x", rdfTypeIri, .iri "D"⟩, ⟨.iri "D", rdfsSubClassOf, .iri "C"⟩,
    ⟨.iri "C", rdfsSubClassOf, .iri "D"⟩]

theorem targetClass_cycle : hasType classCycle 4 (.iri "x") (.iri "C") = some true :=
  ((targetClass_iff_hasType (by simp [classCycle, Resource.iri]) (.iri "C") (by decide)).2
    (.iri "x")).mp (by decide)

/-! ## Lists -/

/-- From a cell to the rest of its list. -/
def RestOf (g : List ShaclTriple) (a b : ShaclTerm) : Prop :=
  a ≠ rdfNil ∧ ⟨a, rdfRest, b⟩ ∈ g

/-- Every cell on the way has one value and one rest. -/
def Unbranched (g : List ShaclTriple) (n : ShaclTerm) : Prop :=
  ∀ c, ReflTransGen (RestOf g) n c → c ≠ rdfNil →
    (∃! v, ⟨c, rdfFirst, v⟩ ∈ g) ∧ ∃! v, ⟨c, rdfRest, v⟩ ∈ g

/-- A step of the test: the cell has a value, and this is its first rest. -/
def FirstRest (g : List ShaclTriple) (a b : ShaclTerm) : Prop :=
  (first g a rdfFirst).isSome ∧ first g a rdfRest = some b

/-- The walk of `isWellFormedList`, by which it finds `rdf:nil`. -/
theorem isWellFormedList_eq (hg : ∀ t ∈ g, Resource t.subject) (hfuel : g.length + 1 < fuel)
    (n : ShaclTerm) : ∃ b, isWellFormedList g fuel n = some b ∧
      (b = true ↔ ReflTransGen (FirstRest g) n rdfNil) := by
  let next c := if first g c rdfFirst = none then [] else (first g c rdfRest).toList
  let U := ((n :: objects g).map ShaclTerm.termKey).toFinset
  have hnext : ∀ a b, b ∈ next a ↔ FirstRest g a b := by
    intro a b
    cases hfirst : first g a rdfFirst <;> simp [next, FirstRest, hfirst]
  have hU : ∀ a, ∀ b ∈ next a, b.termKey ∈ U := fun a b hb =>
    mem_toFinset.mpr (mem_map_of_mem (mem_cons_of_mem n
      (mem_objects_of_mem_objectsOf (mem_of_head? ((hnext a b).mp hb).2))))
  have hcard : (Lib.unmarked U []).card < fuel := by
    refine ((Finset.card_filter_le U _).trans (toFinset_card_le _)).trans_lt ?_
    rw [length_map, length_cons, objects, length_map]
    exact hfuel
  obtain ⟨r, hr⟩ := @Lib.descend_returns _ _ Unit _ ShaclTerm.termKey next
    (fun c => c.equal rdfNil) (fun _ s => s) U hU fuel n [] () (by simp [U]) hcard
  refine ⟨r.1, by rw [isWellFormedList, hr]; rfl, ?_⟩
  rw [descend_resource_iff (show Resource rdfNil from .iri _) (fun a ha => ?_) hr]
  · simp only [hnext]
  · refine eq_nil_iff_forall_not_mem.mpr fun b hb => ha ?_
    exact hg _ (first_eq_some hg ((hnext a b).mp hb).2)

theorem IsList.reaches {items : List ShaclTerm} (h : IsList g n items) :
    ReflTransGen (FirstRest g) n rdfNil := by
  induction h with
  | nil => exact .refl
  | cons hcell _ hfirst hfirsts hrest hrests _ ih =>
    obtain ⟨_, hf⟩ := objectsOf_eq_cons hcell hfirst hfirsts
    obtain ⟨_, hr⟩ := objectsOf_eq_cons hcell hrest hrests
    exact .head ⟨by rw [first, rdfFirst, hf]; rfl, by rw [first, rdfRest, hr]; rfl⟩ ih

theorem IsList.unbranched {items : List ShaclTerm} (h : IsList g n items) : Unbranched g n := by
  induction h with
  | nil =>
    intro c hc hne
    rcases hc.cases_head with rfl | ⟨b, hab, -⟩
    · exact absurd rfl hne
    · exact absurd rfl hab.1
  | cons _ _ hfirst hfirsts hrest hrests _ ih =>
    intro c hc hne
    rcases hc.cases_head with rfl | ⟨b, hab, hbc⟩
    · exact ⟨⟨_, hfirst, hfirsts⟩, _, hrest, hrests⟩
    · rw [hrests b hab.2] at hbc
      exact ih c hbc hne

theorem IsList.perm {g' : List ShaclTriple} {items : List ShaclTerm} (h : IsList g n items)
    (hperm : g' ~ g) : IsList g' n items := by
  induction h with
  | nil => exact .nil
  | cons hcell hne hfirst hfirsts hrest hrests _ ih =>
    exact .cons hcell hne (hperm.mem_iff.mpr hfirst) (fun v hv => hfirsts v (hperm.mem_iff.mp hv))
      (hperm.mem_iff.mpr hrest) (fun v hv => hrests v (hperm.mem_iff.mp hv)) ih

theorem exists_isList (hg : ∀ t ∈ g, Resource t.subject) (hone : Unbranched g n)
    (h : ReflTransGen (FirstRest g) n rdfNil) : ∃ items, IsList g n items := by
  induction h using ReflTransGen.head_induction_on with
  | refl => exact ⟨[], .nil⟩
  | @head a b hab _ ih =>
    by_cases hnil : a = rdfNil
    · rw [hnil]
      exact ⟨[], .nil⟩
    · have hrest := first_eq_some hg hab.2
      obtain ⟨items, hitems⟩ := ih fun c hc => hone c (.head ⟨hnil, hrest⟩ hc)
      obtain ⟨⟨v, hv, hvs⟩, w, hw, hws⟩ := hone a .refl hnil
      rw [hws b hrest] at hitems
      exact ⟨v :: items, .cons (hg _ hw) hnil hv hvs hw hws hitems⟩

/-- The test for a list is right, and what is read of a list it accepts does not depend on the
    order of the triples, exactly if a walk along the first rests that comes to `rdf:nil`
    passes no cell with two values or two rests. -/
theorem isWellFormedList_iff (hg : ∀ t ∈ g, Resource t.subject) (hfuel : g.length + 1 < fuel)
    (n : ShaclTerm) : ∃ b, isWellFormedList g fuel n = some b ∧
      (((b = true ↔ ∃ items, IsList g n items) ∧
          (b = true → ∀ g', g' ~ g → rdfList g' n = rdfList g n)) ↔
        (ReflTransGen (FirstRest g) n rdfNil → Unbranched g n)) := by
  obtain ⟨b, hb, hiff⟩ := isWellFormedList_eq hg hfuel n
  refine ⟨b, hb, fun h hnil => ?_, fun hone => ⟨⟨fun htrue => ?_, ?_⟩, ?_⟩⟩
  · obtain ⟨items, hitems⟩ := h.1.mp (hiff.mpr hnil)
    exact hitems.unbranched
  · exact exists_isList hg (hone (hiff.mp htrue)) (hiff.mp htrue)
  · rintro ⟨items, hitems⟩
    exact hiff.mpr hitems.reaches
  · intro htrue g' hperm
    obtain ⟨items, hitems⟩ := exists_isList hg (hone (hiff.mp htrue)) (hiff.mp htrue)
    rw [rdfList_eq hitems, rdfList_eq (hitems.perm hperm)]

/-- A cell with two values. -/
def twoValues : List ShaclTriple :=
  [⟨.iri "l", rdfFirst, .iri "a"⟩, ⟨.iri "l", rdfFirst, .iri "b"⟩, ⟨.iri "l", rdfRest, rdfNil⟩]

theorem isWellFormedList_twoValues : isWellFormedList twoValues 5 (.iri "l") = some true ∧
    (¬ ∃ items, IsList twoValues (.iri "l") items) ∧
    rdfList twoValues (.iri "l") ≠ rdfList twoValues.reverse (.iri "l") := by
  refine ⟨?_, ?_, by decide⟩
  · obtain ⟨b, hb, hiff⟩ := isWellFormedList_eq (g := twoValues)
      (by simp [twoValues, Resource.iri]) (by decide : _ < 5) (.iri "l")
    rw [hb, hiff.mpr (.single ⟨by decide, by decide⟩)]
  · rintro ⟨items, hitems⟩
    obtain ⟨⟨v, -, hone⟩, -⟩ := hitems.unbranched (.iri "l") .refl (by decide)
    have ha := hone (.iri "a") (by decide)
    exact absurd (ha.trans (hone (.iri "b") (by decide)).symm) (by decide)

theorem isWellFormedList_oneValue :
    ∃ b, isWellFormedList twoValues.tail 5 (.iri "l") = some b := by
  obtain ⟨b, hb, -⟩ := isWellFormedList_iff (g := twoValues.tail)
    (by simp [twoValues, Resource.iri]) (by decide : _ < 5) (.iri "l")
  exact ⟨b, hb⟩

/-! ## Rows -/

/-- The orders in which the bindings of the rows can be visited. -/
def Visits : List (List (String × ShaclTerm)) → List (List (String × ShaclTerm)) → Prop :=
  Forall₂ fun row visited => visited ~ row

theorem firstBindings_of_lookup {v : String} {rows run : List (List (String × ShaclTerm))}
    (hrun : Visits rows run) (h : ∀ row ∈ rows, ∀ e ∈ row, row.lookup v = some e.2) :
    firstBindings run = rows.filterMap (lookup v) := by
  induction hrun with
  | nil => rfl
  | @cons row visited rows run hperm _ ih =>
    have hrest : firstBindings run = rows.filterMap (lookup v) :=
      ih fun row hrow => h row (mem_cons_of_mem _ hrow)
    cases visited with
    | nil =>
      rw [nil_perm.mp hperm]
      exact hrest
    | cons e visited =>
      rw [filterMap_cons_some (h row mem_cons_self e (hperm.subset mem_cons_self)), ← hrest]
      rfl

theorem lookup_of_firstBindings {v : String} : ∀ {rows : List (List (String × ShaclTerm))},
    (∀ run, Visits rows run → firstBindings run = rows.filterMap (lookup v)) →
      ∀ row ∈ rows, ∀ e ∈ row, row.lookup v = some e.2
  | [], _ => nofun
  | row :: rows, h => by
    have hsame : Visits rows rows := forall₂_same.mpr fun _ _ => .refl _
    have hhead : ∀ e ∈ row, row.lookup v = some e.2 := by
      intro e he
      -- The row can be visited from any of its bindings on.
      have hrun := h ((e :: row.erase e) :: rows) (.cons (perm_cons_erase he).symm hsame)
      cases hv : row.lookup v with
      | none =>
        have hle : (rows.filterMap (lookup v)).length ≤ (firstBindings rows).length := by
          rw [firstBindings, length_filterMap_eq_countP, length_filterMap_eq_countP]
          refine countP_mono_left fun row _ hsome => ?_
          cases row <;> simp_all
        rw [filterMap_cons_none hv] at hrun
        rw [← hrun] at hle
        exact absurd hle (Nat.not_succ_le_self _)
      | some x =>
        rw [filterMap_cons_some hv] at hrun
        rw [← (List.cons.inj hrun).1]
    refine forall_mem_cons.mpr ⟨hhead, lookup_of_firstBindings fun run hrun => ?_⟩
    have hrun := h (row :: run) (.cons (.refl _) hrun)
    cases row with
    | nil => exact hrun
    | cons e row =>
      rw [filterMap_cons_some (hhead e mem_cons_self)] at hrun
      exact (List.cons.inj hrun).2

/-- The value nodes and the targets of a query are the values of one variable, in whatever
    order the rows are visited, exactly if the rows bind no other value. -/
theorem firstBindings_iff (g : List ShaclTriple) (rows : List (List (String × ShaclTerm))) :
    (∃ v, ∀ run, Visits rows run →
        evalSPARQLValues (.ok run) = rows.filterMap (lookup v) ∧
          resolveTargets g [.sparql (.ok run)] =
            Lib.fresh ShaclTerm.indexKey [] (rows.filterMap (lookup v))) ↔
      ∃ v, ∀ row ∈ rows, ∀ e ∈ row, row.lookup v = some e.2 := by
  refine exists_congr fun v => ⟨fun h => ?_, fun h run hrun => ?_⟩
  · exact lookup_of_firstBindings fun run hrun => (h run hrun).1
  · have heq := firstBindings_of_lookup hrun h
    refine ⟨heq, ?_⟩
    rw [resolveTargets, flatMap_singleton, targetNodes, heq]

theorem evalSPARQLValues_twoVariables :
    let rows := [[("this", .iri "x"), ("value", .iri "y")]]
    ¬ ∃ v, ∀ run, Visits rows run → evalSPARQLValues (.ok run) = rows.filterMap (lookup v) := by
  rintro rows ⟨v, h⟩
  have hone := h rows (.cons (.refl _) .nil)
  have hother := h [[("value", .iri "y"), ("this", .iri "x")]] (.cons (.swap _ _ _) .nil)
  exact absurd (hone.trans hother.symm) (by decide)

end Shacl

end GoRdf
