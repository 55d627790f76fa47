import GoRdf.Core.Term
import Mathlib.Data.Set.Function

/-!
# Isomorphic Graphs

Blank nodes have no names of their own, so two graphs are the same if one is the
other with its blank nodes renamed.

Renaming is a special case of putting a subject in the place of each blank node,
as minting IRIs for them is, and what is known of renaming is proved for that.

## Main definitions

* `SubjectOf.nodes`, `SubjectOf.iris`: The blank nodes and the IRIs of a subject,
  at any depth.
* `SubjectOf.bind`: A subject in the place of every blank node.
* `TripleOf.rename`, `Isomorphic`: Graphs up to blank nodes.

## Theorems

* `SubjectOf.mem_iris_bind`: The IRIs of the result.
-/

namespace GoRdf

variable {ok : Char → Bool}

mutual

/-- The blank nodes of a subject. -/
def SubjectOf.nodes : SubjectOf ok → List (BNodeOf ok)
  | .uri _ => []
  | .bnode b => [b]
  | .triple s _ o => s.nodes ++ o.nodes

/-- The blank nodes of a term. -/
def TermOf.nodes : TermOf ok → List (BNodeOf ok)
  | .subject s => s.nodes
  | .literal _ => []

end

mutual

/-- The IRIs of a subject, other than datatypes. -/
def SubjectOf.iris : SubjectOf ok → List (URIRefOf ok)
  | .uri u => [u]
  | .bnode _ => []
  | .triple s p o => s.iris ++ p :: o.iris

/-- The IRIs of a term. -/
def TermOf.iris : TermOf ok → List (URIRefOf ok)
  | .subject s => s.iris
  | .literal _ => []

end

mutual

/-- The subject `σ` gives for each blank node, in its place. -/
def SubjectOf.bind (σ : BNodeOf ok → SubjectOf ok) : SubjectOf ok → SubjectOf ok
  | .uri u => .uri u
  | .bnode b => σ b
  | .triple s p o => .triple (s.bind σ) p (o.bind σ)

/-- The same in a term. -/
def TermOf.bind (σ : BNodeOf ok → SubjectOf ok) : TermOf ok → TermOf ok
  | .subject s => .subject (s.bind σ)
  | .literal l => .literal l

end

namespace TripleOf

/-- The blank nodes of a triple. -/
def nodes (t : TripleOf ok) : List (BNodeOf ok) :=
  t.subject.nodes ++ t.object.nodes

/-- The IRIs of a triple, other than datatypes. -/
def iris (t : TripleOf ok) : List (URIRefOf ok) :=
  t.subject.iris ++ t.predicate :: t.object.iris

/-- The subject `σ` gives for each blank node, in its place. -/
def bind (σ : BNodeOf ok → SubjectOf ok) (t : TripleOf ok) : TripleOf ok :=
  ⟨t.subject.bind σ, t.predicate, t.object.bind σ⟩

/-- A triple with its blank nodes renamed. -/
def rename (f : BNodeOf ok → BNodeOf ok) (t : TripleOf ok) : TripleOf ok :=
  t.bind fun b => .bnode (f b)

end TripleOf

/-- The blank nodes of a graph. -/
def graphNodes (g : List (TripleOf ok)) : Set (BNodeOf ok) :=
  {b | ∃ t ∈ g, b ∈ t.nodes}

/-- One graph is the other with its blank nodes renamed, different ones to different
    ones. -/
def Isomorphic (g h : List (TripleOf ok)) : Prop :=
  ∃ f : BNodeOf ok → BNodeOf ok, Set.InjOn f (graphNodes g) ∧
    ∀ t, t ∈ h ↔ ∃ u ∈ g, u.rename f = t

/-! ## What the result depends on -/

section

variable {σ τ σ' τ' : BNodeOf ok → SubjectOf ok} {f : BNodeOf ok → BNodeOf ok}

mutual

theorem SubjectOf.bind_of_fixed : ∀ {s : SubjectOf ok}, (∀ b ∈ s.nodes, σ b = .bnode b) →
    s.bind σ = s
  | .uri _, _ => rfl
  | .bnode b, h => h b (List.mem_singleton_self b)
  | .triple s p o, h => by
    rw [SubjectOf.bind, SubjectOf.bind_of_fixed fun b hb => h b (List.mem_append_left _ hb),
      TermOf.bind_of_fixed fun b hb => h b (List.mem_append_right _ hb)]

theorem TermOf.bind_of_fixed : ∀ {t : TermOf ok}, (∀ b ∈ t.nodes, σ b = .bnode b) → t.bind σ = t
  | .subject _, h => congrArg TermOf.subject (SubjectOf.bind_of_fixed h)
  | .literal _, _ => rfl

end

mutual

/-- What two replacements after each other give depends on what they do to the nodes. -/
theorem SubjectOf.bind_bind_congr : ∀ {s : SubjectOf ok},
    (∀ b ∈ s.nodes, (σ b).bind τ = (σ' b).bind τ') → (s.bind σ).bind τ = (s.bind σ').bind τ'
  | .uri _, _ => rfl
  | .bnode b, h => h b (List.mem_singleton_self b)
  | .triple s p o, h => by
    simp only [SubjectOf.bind]
    rw [SubjectOf.bind_bind_congr fun b hb => h b (List.mem_append_left _ hb),
      TermOf.bind_bind_congr fun b hb => h b (List.mem_append_right _ hb)]

theorem TermOf.bind_bind_congr : ∀ {t : TermOf ok},
    (∀ b ∈ t.nodes, (σ b).bind τ = (σ' b).bind τ') → (t.bind σ).bind τ = (t.bind σ').bind τ'
  | .subject _, h => congrArg TermOf.subject (SubjectOf.bind_bind_congr h)
  | .literal _, _ => rfl

end

mutual

theorem SubjectOf.nodes_rename : ∀ s : SubjectOf ok,
    (s.bind fun b => .bnode (f b)).nodes = s.nodes.map f
  | .uri _ | .bnode _ => rfl
  | .triple s p o => by
    simp only [SubjectOf.bind, SubjectOf.nodes, List.map_append]
    rw [SubjectOf.nodes_rename s, TermOf.nodes_rename o]

theorem TermOf.nodes_rename : ∀ t : TermOf ok,
    (t.bind fun b => .bnode (f b)).nodes = t.nodes.map f
  | .subject s => SubjectOf.nodes_rename s
  | .literal _ => rfl

end

theorem TripleOf.nodes_rename (t : TripleOf ok) : (t.rename f).nodes = t.nodes.map f := by
  rw [TripleOf.nodes, TripleOf.nodes, List.map_append, ← SubjectOf.nodes_rename,
    ← TermOf.nodes_rename]
  rfl

/-! ## What the result tells -/

section

/-! The nodes of `N` become other nodes, or IRIs that are not in `I`. -/
variable {N : Set (BNodeOf ok)} {I : Set (URIRefOf ok)} (hinj : Set.InjOn σ N)
  (hleaf : ∀ b ∈ N, (∃ c, σ b = .bnode c) ∨ ∃ v ∉ I, σ b = .uri v)

include hinj hleaf

theorem SubjectOf.eq_bnode_of_bind {b : BNodeOf ok} (hb : b ∈ N) {s : SubjectOf ok}
    (hnodes : ∀ b ∈ s.nodes, b ∈ N) (hiris : ∀ v ∈ s.iris, v ∈ I) (h : s.bind σ = σ b) :
    s = .bnode b := by
  cases s with
  | bnode c => rw [hinj (hnodes c (List.mem_singleton_self c)) hb h]
  | uri v | triple s p o =>
    rcases hleaf b hb with ⟨c, hc⟩ | ⟨w, hw, hc⟩
    all_goals rw [hc] at h; cases h
    all_goals exact absurd (hiris _ (List.mem_singleton_self _)) hw

theorem SubjectOf.eq_of_bind_eq : ∀ {s r : SubjectOf ok},
    (∀ b ∈ s.nodes, b ∈ N) → (∀ b ∈ r.nodes, b ∈ N) → (∀ v ∈ s.iris, v ∈ I) →
      (∀ v ∈ r.iris, v ∈ I) → s.bind σ = r.bind σ → s = r
  | .bnode b, s', hn, hn', _, hi', h =>
    (SubjectOf.eq_bnode_of_bind hinj hleaf (hn b (List.mem_singleton_self b)) hn' hi' h.symm).symm
  | s, .bnode b, hn, hn', hi, _, h =>
    SubjectOf.eq_bnode_of_bind hinj hleaf (hn' b (List.mem_singleton_self b)) hn hi h
  | .uri _, .uri _, _, _, _, _, h => h
  | .triple s p o, .triple s' p' o', hn, hn', hi, hi', h => by
    simp only [SubjectOf.bind, SubjectOf.triple.injEq] at h
    simp only [SubjectOf.nodes, SubjectOf.iris, List.forall_mem_append, List.forall_mem_cons]
      at hn hn' hi hi'
    have ho : o = o' := by
      match o, o', h.2.2 with
      | .literal _, .literal _, heq => exact heq
      | .subject o, .subject o', heq =>
        rw [SubjectOf.eq_of_bind_eq hn.2 hn'.2 hi.2.2 hi'.2.2 (TermOf.subject.inj heq)]
    rw [SubjectOf.eq_of_bind_eq hn.1 hn'.1 hi.1 hi'.1 h.1, h.2.1, ho]

theorem TripleOf.eq_of_bind_eq {t t' : TripleOf ok} (hn : ∀ b ∈ t.nodes, b ∈ N)
    (hn' : ∀ b ∈ t'.nodes, b ∈ N) (hi : ∀ v ∈ t.iris, v ∈ I) (hi' : ∀ v ∈ t'.iris, v ∈ I)
    (h : t.bind σ = t'.bind σ) : t = t' := by
  -- A triple is bound as the triple term of its parts is.
  have hterm := SubjectOf.eq_of_bind_eq hinj hleaf (s := .triple t.subject t.predicate t.object)
    (r := .triple t'.subject t'.predicate t'.object) hn hn' hi hi'
    (by simpa [SubjectOf.bind, TripleOf.bind] using h)
  cases t
  cases t'
  cases hterm
  rfl

end

variable {u : URIRefOf ok}

mutual

/-- The IRIs that were there, and those of what was put in. -/
theorem SubjectOf.mem_iris_bind : ∀ {s : SubjectOf ok},
    u ∈ (s.bind σ).iris ↔ u ∈ s.iris ∨ ∃ b ∈ s.nodes, u ∈ (σ b).iris
  | .uri _ => by simp [SubjectOf.bind, SubjectOf.nodes]
  | .bnode _ => by simp [SubjectOf.bind, SubjectOf.nodes, SubjectOf.iris]
  | .triple s p o => by
    simp only [SubjectOf.bind, SubjectOf.nodes, SubjectOf.iris, List.mem_append, List.mem_cons,
      SubjectOf.mem_iris_bind, TermOf.mem_iris_bind, or_and_right, exists_or]
    grind

theorem TermOf.mem_iris_bind : ∀ {t : TermOf ok},
    u ∈ (t.bind σ).iris ↔ u ∈ t.iris ∨ ∃ b ∈ t.nodes, u ∈ (σ b).iris
  | .subject s => SubjectOf.mem_iris_bind (s := s)
  | .literal _ => by simp [TermOf.bind, TermOf.nodes]

end

end

/-- Renaming leaves the IRIs alone. -/
theorem TripleOf.mem_iris_rename {f : BNodeOf ok → BNodeOf ok} {t : TripleOf ok}
    {u : URIRefOf ok} : u ∈ (t.rename f).iris ↔ u ∈ t.iris := by
  simp [TripleOf.rename, TripleOf.bind, TripleOf.iris, SubjectOf.mem_iris_bind,
    TermOf.mem_iris_bind, SubjectOf.iris]

end GoRdf
