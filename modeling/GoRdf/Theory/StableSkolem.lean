import Mathlib.Data.List.Perm.Subperm
import Mathlib.Data.List.Sort
import Mathlib.Data.Set.Finite.List
import Mathlib.Logic.Equiv.Basic
import GoRdf.Theory.Skolem

/-!
# Stable Skolem IRIs

When isomorphic graphs have the same Skolem IRIs.

The hashes do not look at labels: a renaming of blank nodes carries the signatures of
one graph to those of the other, round by round, and the number of classes with them.
Labels come in at the end, when the nodes of one signature are numbered in their
order. So a renamed graph is minted as the first one would be, had its nodes been
exchanged among those of the same signature, and every such exchange comes about by
some renaming.

The output is therefore the same for all isomorphic graphs when every exchange of
nodes within their signatures is an automorphism, and where no IRI of the graph is
under the base, only then. It is not enough that any two nodes of a signature are
exchanged by an automorphism: in two pairs of linked nodes, the first nodes are
numbered without regard to the numbers of the second ones.

## Main definitions

* `Flat`: A graph without triple terms.
* `finalSignature`, `identifier`: What a node is numbered by, and its identifier.
* `KeepsSignatures`, `Interchangeable`: Exchanges within signatures.
* `StableOutput`: Isomorphic graphs are minted alike.

## Theorems

* `finalSignature_rename`: Signatures do not look at labels.
* `exists_exchange`: A renamed graph is minted as an exchange of the first one.
* `skolemize_stable`: When the output is the same for isomorphic graphs.
* `skolemize_pairs`: Two pairs of linked nodes.
-/

namespace GoRdf

open List SubjectOf

namespace Skolem

variable {b : BNode} {g g' : List Triple} {f : BNode → BNode} {t : Triple} {sig : Signatures}

/-! ## Graphs without triple terms -/

/-- A subject that is no triple term. -/
def flatSubject : Subject → Bool
  | .triple _ _ _ => false
  | _ => true

/-- A term that is no triple term. -/
def flatTerm : Term → Bool
  | .subject s => flatSubject s
  | .literal _ => true

/-- A graph without triple terms. -/
def Flat (g : List Triple) : Prop :=
  ∀ t ∈ g, flatSubject t.subject = true ∧ flatTerm t.object = true

section

variable {f : BNode → BNode} {t u : Triple}

theorem topLabels_eq (h : flatSubject t.subject = true ∧ flatTerm t.object = true) :
    topLabels t = t.nodes.map label := by
  rcases t with ⟨_ | _ | _, p, (_ | _ | _) | _⟩ <;>
    first | rfl | simp [flatSubject, flatTerm] at h

end

theorem rename_injOn (hinj : Set.InjOn f (graphNodes g)) :
    ∀ t ∈ g, ∀ u ∈ g, t.rename f = u.rename f → t = u := by
  intro t ht u hu h
  refine TripleOf.eq_of_bind_eq (N := graphNodes g) (I := Set.univ) ?_ ?_
    (fun b hb => ⟨t, ht, hb⟩) (fun b hb => ⟨u, hu, hb⟩) (by simp) (by simp) h
  · exact fun b hb c hc heq => hinj hb hc (bnode.inj heq)
  · exact fun b _ => .inl ⟨f b, rfl⟩

/-- The blank nodes of a graph, each once. -/
def nodesOf (g : List Triple) : List BNode :=
  (g.flatMap TripleOf.nodes).dedup

theorem mem_nodesOf : b ∈ nodesOf g ↔ b ∈ graphNodes g := by
  rw [nodesOf, mem_dedup, mem_flatMap]
  rfl

theorem finite_graphNodes : (graphNodes g).Finite :=
  (nodesOf g).finite_toSet.subset fun _ => mem_nodesOf.mpr

theorem mem_labels (hflat : Flat g) {l : List Char} :
    l ∈ labels g ↔ ∃ b ∈ graphNodes g, label b = l := by
  rw [labels, mem_mergeSort, mem_dedup, mem_flatMap]
  constructor
  · rintro ⟨t, ht, hl⟩
    rw [topLabels_eq (hflat t ht)] at hl
    rcases mem_map.mp hl with ⟨b, hb, rfl⟩
    exact ⟨b, ⟨t, ht, hb⟩, rfl⟩
  · rintro ⟨b, ⟨t, ht, hb⟩, rfl⟩
    refine ⟨t, ht, ?_⟩
    rw [topLabels_eq (hflat t ht)]
    exact mem_map_of_mem hb

theorem nodup_labels (g : List Triple) : (labels g).Nodup :=
  nodup_mergeSort.mpr (nodup_dedup _)

theorem lookup_nextSignatures (hflat : Flat g) (digest : Digest) (sig : Signatures)
    (hb : b ∈ graphNodes g) :
    (nextSignatures digest g sig).lookup (label b) =
      some (digest.sum (surroundings g sig (label b))) := by
  rw [nextSignatures, Lib.lookup_map_pair _ ((mem_labels hflat).mpr ⟨b, hb, rfl⟩)]

/-- A sorted list does not depend on the order it had before. -/
theorem mergeSort_eq_of_perm {xs ys : List (List Char)} (h : xs.Perm ys) :
    (xs.mergeSort fun a b => decide (a ≤ b)) = ys.mergeSort fun a b => decide (a ≤ b) := by
  have hperm : (xs.mergeSort fun a b => decide (a ≤ b)).Perm
      (ys.mergeSort fun a b => decide (a ≤ b)) :=
    ((mergeSort_perm xs _).trans h).trans (mergeSort_perm ys _).symm
  exact hperm.eq_of_pairwise (fun _ _ _ _ => le_antisymm) (pairwise_mergeSort' _ xs)
    (pairwise_mergeSort' _ ys)

/-! ## Renamed graphs -/

/-- One graph is a list of the triples of the other, with its blank nodes renamed. -/
structure Renames (f : BNode → BNode) (g g' : List Triple) : Prop where
  flat : Flat g
  inj : Set.InjOn f (graphNodes g)
  perm : g'.Perm (g.map fun t => t.rename f)

theorem renames_of_isomorphic (hflat : Flat g) (hg : g.Nodup) (hg' : g'.Nodup)
    (h : Isomorphic g g') :
    ∃ f, Renames f g g' := by
  rcases h with ⟨f, hinj, hmem⟩
  refine ⟨f, hflat, hinj, ?_⟩
  have hnodup : (g.map fun t => t.rename f).Nodup :=
    List.Nodup.map_on (rename_injOn hinj) hg
  rw [perm_ext_iff_of_nodup hg' hnodup]
  intro t
  rw [hmem, mem_map]

section

variable {f : BNode → BNode} {g g' : List Triple} (h : Renames f g g') (digest : Digest)
include h

theorem Renames.mem_iff : t ∈ g' ↔ ∃ u ∈ g, u.rename f = t := by
  rw [h.perm.mem_iff, mem_map]

theorem Renames.flat_right : Flat g' := by
  intro t ht
  rcases h.mem_iff.mp ht with ⟨u, hu, rfl⟩
  have hflat := h.flat u hu
  rcases u with ⟨_ | _ | _, p, (_ | _ | _) | _⟩ <;>
    first | exact ⟨rfl, rfl⟩ | simp [flatSubject, flatTerm] at hflat

theorem Renames.mem_graphNodes : b ∈ graphNodes g' ↔ ∃ c ∈ graphNodes g, f c = b := by
  constructor
  · rintro ⟨t, ht, hb⟩
    rcases h.mem_iff.mp ht with ⟨u, hu, rfl⟩
    rw [TripleOf.nodes_rename] at hb
    rcases mem_map.mp hb with ⟨c, hc, rfl⟩
    exact ⟨c, ⟨u, hu, hc⟩, rfl⟩
  · rintro ⟨c, ⟨u, hu, hc⟩, rfl⟩
    refine ⟨u.rename f, h.mem_iff.mpr ⟨u, hu, rfl⟩, ?_⟩
    rw [TripleOf.nodes_rename]
    exact mem_map_of_mem hc

/-- The labels of the renamed graph. -/
theorem Renames.labels_perm : (labels g').Perm ((nodesOf g).map fun b => label (f b)) := by
  have hnodup : ((nodesOf g).map fun b => label (f b)).Nodup := by
    refine List.Nodup.map_on ?_ (nodup_dedup _)
    intro b hb c hc heq
    exact h.inj (mem_nodesOf.mp hb) (mem_nodesOf.mp hc) (label_injective heq)
  rw [perm_ext_iff_of_nodup (nodup_labels g') hnodup]
  intro l
  rw [mem_labels h.flat_right, mem_map]
  constructor
  · rintro ⟨b, hb, rfl⟩
    rcases h.mem_graphNodes.mp hb with ⟨c, hc, rfl⟩
    exact ⟨c, mem_nodesOf.mpr hc, rfl⟩
  · rintro ⟨c, hc, rfl⟩
    exact ⟨f c, h.mem_graphNodes.mpr ⟨c, mem_nodesOf.mp hc, rfl⟩, rfl⟩

omit h in
/-- The renaming that renames nothing. -/
theorem Renames.refl (hflat : Flat g) : Renames id g g where
  flat := hflat
  inj := Set.injOn_id _
  perm := by
    have hid : ∀ t ∈ g, t.rename id = t := fun t _ => by
      rw [TripleOf.rename, TripleOf.bind, bind_of_fixed (fun _ _ => by rfl),
        TermOf.bind_of_fixed (fun _ _ => by rfl)]
    rw [map_congr_left hid, map_id']

/-! ## Signatures -/

/-- The signatures of a node before and after it is renamed are the same. -/
def Agree (f : BNode → BNode) (g : List Triple) (sig sig' : Signatures) : Prop :=
  ∀ b ∈ graphNodes g, sig'.lookup (label (f b)) = sig.lookup (label b)

variable {sig sig' : Signatures} (hagree : Agree f g sig sig')
include hagree

theorem repr_rename (hb : b ∈ graphNodes g) {t : Term} (hflat : flatTerm t = true)
    (hnodes : ∀ c ∈ t.nodes, c ∈ graphNodes g) :
    repr sig' (label (f b)) (t.bind fun c => .bnode (f c)) = repr sig (label b) t := by
  rcases t with (u | c | _) | l
  · rfl
  · have hc := hnodes c (by simp [TermOf.nodes, SubjectOf.nodes])
    have hself : label (f c) = label (f b) ↔ label c = label b := by
      constructor
      · intro heq
        rw [h.inj hc hb (label_injective heq)]
      · intro heq
        rw [label_injective heq]
    rw [TermOf.bind, SubjectOf.bind, repr, repr]
    simp only [hself, hagree c hc]
  · simp [flatTerm, flatSubject] at hflat
  · rfl

omit hagree in
theorem incident_rename (hb : b ∈ graphNodes g) :
    (incident g' (label (f b))).Perm ((incident g (label b)).map fun t => t.rename f) := by
  refine (h.perm.filter _).trans ?_
  rw [filter_map]
  refine List.Perm.of_eq (congrArg _ (filter_congr ?_))
  intro t ht
  have hflat' := h.flat_right (t.rename f) (h.mem_iff.mpr ⟨t, ht, rfl⟩)
  rw [Function.comp, Bool.eq_iff_iff, contains_iff_mem, contains_iff_mem]
  rw [topLabels_eq (h.flat t ht), topLabels_eq hflat', TripleOf.nodes_rename, map_map, mem_map,
    mem_map]
  constructor
  · rintro ⟨c, hc, heq⟩
    exact ⟨c, hc, by rw [h.inj ⟨t, ht, hc⟩ hb (label_injective heq)]⟩
  · rintro ⟨c, hc, heq⟩
    exact ⟨c, hc, by rw [label_injective heq]; rfl⟩

/-- What a node is hashed from does not look at labels, nor at the order of triples. -/
theorem surroundings_rename (hb : b ∈ graphNodes g) :
    surroundings g' sig' (label (f b)) = surroundings g sig (label b) := by
  unfold surroundings
  dsimp only
  congr 1
  have hparts : ((incident g' (label (f b))).map fun t =>
      repr sig' (label (f b)) (.subject t.subject) ++ ' ' :: t.predicate.n3 ++
        ' ' :: repr sig' (label (f b)) t.object).Perm
      ((incident g (label b)).map fun t =>
        repr sig (label b) (.subject t.subject) ++ ' ' :: t.predicate.n3 ++
          ' ' :: repr sig (label b) t.object) := by
    refine ((incident_rename h hb).map _).trans ?_
    rw [map_map]
    refine List.Perm.of_eq (map_congr_left ?_)
    intro t ht
    have htg : t ∈ g := mem_of_mem_filter ht
    have hsubject := repr_rename h hagree hb (t := .subject t.subject) (h.flat t htg).1
      fun c hc => ⟨t, htg, mem_append_left _ hc⟩
    have hobject := repr_rename h hagree hb (t := t.object) (h.flat t htg).2
      fun c hc => ⟨t, htg, mem_append_right _ hc⟩
    rw [← hsubject, ← hobject]
    rfl
  exact mergeSort_eq_of_perm hparts

theorem agree_nextSignatures :
    Agree f g (nextSignatures digest g sig) (nextSignatures digest g' sig') := by
  intro b hb
  rw [lookup_nextSignatures h.flat digest sig hb, lookup_nextSignatures h.flat_right digest sig'
    (h.mem_graphNodes.mpr ⟨b, hb, rfl⟩), surroundings_rename h hagree hb]

/-- A round has as many classes. -/
theorem countDistinct_rename : countDistinct (nextSignatures digest g' sig') =
    countDistinct (nextSignatures digest g sig) := by
  have hvalues : ∀ (k : List Triple) (sig : Signatures),
      (nextSignatures digest k sig).map Prod.snd =
        (labels k).map fun l => digest.sum (surroundings k sig l) := by
    intro k sig
    rw [nextSignatures, map_map]
    rfl
  have hperm : ((nextSignatures digest g' sig').map Prod.snd).Perm
      ((nextSignatures digest g sig).map Prod.snd) := by
    rw [hvalues, hvalues]
    refine (h.labels_perm.map _).trans (List.Perm.trans ?_
      ((Renames.refl h.flat).labels_perm.map _).symm)
    rw [map_map, map_map]
    refine List.Perm.of_eq (map_congr_left ?_)
    intro b hb
    exact congrArg digest.sum (surroundings_rename h hagree (mem_nodesOf.mp hb))
  exact hperm.dedup.length_eq

end

/-- The rounds carry the signatures along. -/
theorem agree_refine (h : Renames f g g') (digest : Digest) :
    ∀ (rounds round classes : Nat) {sig sig' : Signatures},
    Agree f g sig sig' →
      Agree f g (refine digest g rounds round classes sig)
        (refine digest g' rounds round classes sig')
  | 0, _, _, _, _, hagree => hagree
  | rounds + 1, round, classes, sig, sig', hagree => by
    have hnext := agree_nextSignatures h digest hagree
    rw [refine, refine, countDistinct_rename h digest hagree]
    split_ifs
    · exact hnext
    · exact agree_refine h digest rounds _ _ hnext

/-- The signatures a graph is numbered by. -/
def finalSignatures (digest : Digest) (g : List Triple) : Signatures :=
  refine digest g skolemRounds 0 1 ((labels g).map fun l => (l, []))

/-- The signature a node is numbered by. -/
def finalSignature (digest : Digest) (g : List Triple) (b : BNode) : List Char :=
  ((finalSignatures digest g).lookup (label b)).getD []

/-- Signatures do not look at labels. -/
theorem finalSignature_rename (h : Renames f g g') (digest : Digest) (hb : b ∈ graphNodes g) :
    finalSignature digest g' (f b) = finalSignature digest g b := by
  have hstart : Agree f g ((labels g).map fun l => (l, [])) ((labels g').map fun l => (l, [])) := by
    intro b hb
    rw [Lib.lookup_map_pair _ ((mem_labels h.flat).mpr ⟨b, hb, rfl⟩),
      Lib.lookup_map_pair _ ((mem_labels h.flat_right).mpr
        ⟨f b, h.mem_graphNodes.mpr ⟨b, hb, rfl⟩, rfl⟩)]
  unfold finalSignature finalSignatures
  rw [agree_refine h digest skolemRounds 0 1 hstart b hb]

/-! ## Numbers -/

/-- Every number below is given to one. -/
theorem exists_number : ∀ {ls seen : List (List Char)} {s : List Char} {k : Nat},
    seen.count s ≤ k → k < seen.count s + (ls.map (signatureOf sig)).count s →
      ∃ l ∈ ls, signatureOf sig l = s ∧ (l, numbered s k) ∈ number sig ls seen
  | [], seen, s, k, hle, hlt => by
    simp at hlt
    omega
  | l :: ls, seen, s, k, hle, hlt => by
    rw [number]
    by_cases hs : signatureOf sig l = s ∧ seen.count s = k
    · refine ⟨l, mem_cons_self, hs.1, ?_⟩
      rw [← hs.2, ← hs.1]
      exact mem_cons_self
    · -- the number is given to a later one
      have hcount : (signatureOf sig l :: seen).count s ≤ k ∧
          k < (signatureOf sig l :: seen).count s + (ls.map (signatureOf sig)).count s := by
        rw [map_cons, count_cons] at hlt
        rw [count_cons]
        by_cases heq : signatureOf sig l = s
        · have hne : seen.count s ≠ k := fun hk => hs ⟨heq, hk⟩
          simp only [heq, beq_self_eq_true, if_true] at hlt ⊢
          omega
        · have hbeq : (signatureOf sig l == s) = false := by simpa using heq
          simp only [hbeq] at hlt ⊢
          simpa using ⟨hle, hlt⟩
      rcases exists_number hcount.1 hcount.2 with ⟨l', hl', hsig, hmem⟩
      exact ⟨l', mem_cons_of_mem _ hl', hsig, mem_cons_of_mem _ hmem⟩

/-- The identifier of a node. -/
def identifier (digest : Digest) (g : List Triple) (b : BNode) : List Char :=
  ((stableBNodeIDs digest g).lookup (label b)).getD (label b)

section

variable {f : BNode → BNode} {g g' : List Triple} (digest : Digest)

/-- A node has its identifier in the list. -/
theorem mem_stableBNodeIDs (hflat : Flat g) (hb : b ∈ graphNodes g) {id : List Char} :
    (label b, id) ∈ stableBNodeIDs digest g ↔ identifier digest g b = id := by
  have hnodup : ((stableBNodeIDs digest g).map Prod.fst).Nodup := by
    rw [stableBNodeIDs, map_fst_number]
    exact nodup_labels g
  unfold identifier
  constructor
  · intro hmem
    rw [Lib.lookup_of_mem hnodup hmem, Option.getD_some]
  · rintro rfl
    rcases (stableBNodeIDs_spec digest g).2 _ ((mem_labels hflat).mpr ⟨b, hb, rfl⟩) with ⟨id, hid⟩
    rw [hid]
    exact Lib.mem_of_lookup hid

theorem identifier_injOn (hflat : Flat g) : Set.InjOn (identifier digest g) (graphNodes g) := by
  intro b hb c hc heq
  have hmemb := (mem_stableBNodeIDs digest hflat hb).mpr rfl
  have hmemc := (mem_stableBNodeIDs digest hflat hc).mpr heq.symm
  have hpair := inj_on_of_nodup_map (stableBNodeIDs_spec digest g).1 hmemb hmemc rfl
  exact label_injective (Prod.mk.inj hpair).1

/-- How many nodes have a signature. -/
def classSize (digest : Digest) (g : List Triple) (s : List Char) : Nat :=
  ((labels g).map (signatureOf (finalSignatures digest g))).count s

theorem classSize_rename (h : Renames f g g') (s : List Char) :
    classSize digest g' s = classSize digest g s := by
  unfold classSize
  rw [(h.labels_perm.map _).count_eq, ((Renames.refl h.flat).labels_perm.map _).count_eq,
    map_map, map_map]
  congr 1
  refine map_congr_left ?_
  intro b hb
  exact finalSignature_rename h digest (mem_nodesOf.mp hb)

/-- The identifier of a node is its signature with a number below the size of the class. -/
theorem identifier_eq_numbered (hflat : Flat g) (hb : b ∈ graphNodes g) :
    ∃ k < classSize digest g (finalSignature digest g b),
      identifier digest g b = numbered (finalSignature digest g b) k := by
  have hmem := (mem_stableBNodeIDs digest hflat hb).mpr rfl
  rcases mem_number hmem with ⟨-, k, -, hk, hid⟩
  rw [count_nil, Nat.zero_add] at hk
  exact ⟨k, hk, hid⟩

/-- Every number below the size of the class is in an identifier. -/
theorem exists_identifier_eq (hflat : Flat g) {s : List Char} {k : Nat}
    (hk : k < classSize digest g s) :
    ∃ b ∈ graphNodes g, finalSignature digest g b = s ∧ identifier digest g b = numbered s k := by
  have hk' : k < ([] : List (List Char)).count s + classSize digest g s := by
    rw [count_nil, Nat.zero_add]
    exact hk
  rcases exists_number (Nat.zero_le k) hk' with ⟨l, hl, hsig, hmem⟩
  rcases (mem_labels hflat).mp hl with ⟨b, hb, rfl⟩
  exact ⟨b, hb, hsig, (mem_stableBNodeIDs digest hflat hb).mp hmem⟩

/-! ## Exchanges -/

/-- The nodes of a graph are exchanged, each with one of its signature. -/
structure KeepsSignatures (digest : Digest) (g : List Triple) (π : BNode → BNode) : Prop where
  maps : Set.MapsTo π (graphNodes g) (graphNodes g)
  inj : Set.InjOn π (graphNodes g)
  signature : ∀ b ∈ graphNodes g, finalSignature digest g (π b) = finalSignature digest g b

/-- A renamed graph has the identifiers of the first one, exchanged. -/
theorem exists_exchange (h : Renames f g g') :
    ∃ π, KeepsSignatures digest g π ∧
      ∀ b ∈ graphNodes g, identifier digest g' (f b) = identifier digest g (π b) := by
  have hnode : ∀ b ∈ graphNodes g, f b ∈ graphNodes g' := fun b hb =>
    h.mem_graphNodes.mpr ⟨b, hb, rfl⟩
  have hexists : ∀ b ∈ graphNodes g, ∃ c ∈ graphNodes g,
      finalSignature digest g c = finalSignature digest g b ∧
        identifier digest g' (f b) = identifier digest g c := by
    intro b hb
    rcases identifier_eq_numbered digest h.flat_right (hnode b hb) with ⟨k, hk, hid⟩
    rw [finalSignature_rename h digest hb, classSize_rename digest h] at hk
    rcases exists_identifier_eq digest h.flat hk with ⟨c, hc, hsig, hidc⟩
    refine ⟨c, hc, hsig, ?_⟩
    rw [hid, hidc, finalSignature_rename h digest hb]
  have : Nonempty BNode := ⟨nodeX⟩
  choose! π hπ using hexists
  refine ⟨π, ⟨fun b hb => (hπ b hb).1, ?_, fun b hb => (hπ b hb).2.1⟩, fun b hb => (hπ b hb).2.2⟩
  intro b hb c hc heq
  refine h.inj hb hc (identifier_injOn digest h.flat_right (hnode b hb) (hnode c hc) ?_)
  rw [(hπ b hb).2.2, (hπ c hc).2.2]
  exact congrArg _ heq

/-- Numbers are given by signatures. -/
theorem number_congr {sig' : Signatures} : ∀ {ls : List (List Char)} (seen : List (List Char)),
    (∀ l ∈ ls, signatureOf sig l = signatureOf sig' l) → number sig ls seen = number sig' ls seen
  | [], _, _ => rfl
  | l :: ls, seen, h => by
    have hl : (sig.lookup l).getD [] = (sig'.lookup l).getD [] := h l mem_cons_self
    rw [number, number, hl, number_congr _ fun l' hl' => h l' (mem_cons_of_mem _ hl')]

/-- A graph whose nodes are exchanged keeps its identifiers where they are. -/
theorem stableBNodeIDs_exchange {π : BNode → BNode} (hπ : KeepsSignatures digest g π)
    (h : Renames π g g') : stableBNodeIDs digest g' = stableBNodeIDs digest g := by
  -- an exchange reaches every node
  have hsurj : ∀ b ∈ graphNodes g, ∃ c ∈ graphNodes g, π c = b :=
    ((finite_graphNodes.injOn_iff_bijOn_of_mapsTo hπ.maps).mp hπ.inj).surjOn
  have hnodes : ∀ b, b ∈ graphNodes g' ↔ b ∈ graphNodes g := by
    intro b
    rw [h.mem_graphNodes]
    constructor
    · rintro ⟨c, hc, rfl⟩
      exact hπ.maps hc
    · exact hsurj b
  have hlabels : labels g' = labels g := by
    refine mergeSort_eq_of_perm ?_
    rw [perm_ext_iff_of_nodup (nodup_dedup _) (nodup_dedup _)]
    intro l
    have hmem : ∀ k : List Triple, l ∈ (k.flatMap topLabels).dedup ↔ l ∈ labels k := fun k =>
      mem_mergeSort.symm
    rw [hmem, hmem, mem_labels h.flat_right, mem_labels h.flat]
    simp only [hnodes]
  show number (finalSignatures digest g') (labels g') [] = _
  rw [hlabels]
  refine number_congr _ ?_
  intro l hl
  rcases (mem_labels h.flat).mp hl with ⟨b, hb, rfl⟩
  rcases hsurj b hb with ⟨c, hc, rfl⟩
  exact (finalSignature_rename h digest hc).trans (hπ.signature c hc).symm

end

/-! ## The output -/

/-- An exchange of nodes that gives the same graph. -/
def Automorphism (g : List Triple) (π : BNode → BNode) : Prop :=
  Set.InjOn π (graphNodes g) ∧ ∀ t, t ∈ g ↔ ∃ u ∈ g, u.rename π = t

/-- Every exchange of nodes within their signatures gives the same graph. -/
def Interchangeable (digest : Digest) (g : List Triple) : Prop :=
  ∀ π, KeepsSignatures digest g π → Automorphism g π

/-- Isomorphic graphs, in whatever order their stores list them, are minted alike. -/
def StableOutput (digest : Digest) (authority : List Char) (cfg : Config) (g : List Triple) :
    Prop :=
  ∀ g', g'.Nodup → Isomorphic g g' →
    ∀ t, t ∈ skolemize digest authority cfg g' ↔ t ∈ skolemize digest authority cfg g

section

variable {digest : Digest} {cfg : Config} {g g' : List Triple}

theorem mint_eq_identifier (hstable : cfg.stable = true) (base : List Char) (b : BNode) :
    mint base (skolemIDs digest cfg g) b = uriRef (base ++ identifier digest g b) := by
  rw [skolemIDs, if_pos hstable]
  rfl

theorem skolemTriple_eq_bind (μ : BNode → URIRef) (t : Triple) :
    skolemTriple μ t = t.bind fun b => .uri (μ b) := by
  rw [skolemTriple, TripleOf.bind, skolemSubject_eq_bind, skolemTerm_eq_bind]

/-- What is minted for a renamed triple. -/
theorem skolemTriple_rename {μ ν : BNode → URIRef} {π : BNode → BNode}
    (h : ∀ b ∈ t.nodes, μ (f b) = ν (π b)) :
    skolemTriple μ (t.rename f) = skolemTriple ν (t.rename π) := by
  have hbind : ∀ b ∈ t.nodes, SubjectOf.uri (μ (f b)) = .uri (ν (π b)) := fun b hb => by rw [h b hb]
  simp only [skolemTriple_eq_bind, TripleOf.rename, TripleOf.bind, TripleOf.mk.injEq, true_and]
  exact ⟨bind_bind_congr fun b hb => hbind b (mem_append_left _ hb),
    TermOf.bind_bind_congr fun b hb => hbind b (mem_append_right _ hb)⟩

/-- Nodes that can be exchanged at will get the same IRIs in every isomorphic graph. -/
theorem stableOutput_of_interchangeable (authority : List Char) (hstable : cfg.stable = true)
    (hnodup : g.Nodup) (hflat : Flat g) (h : Interchangeable digest g) :
    StableOutput digest authority cfg g := by
  intro g' hg' hiso t
  rcases renames_of_isomorphic hflat hnodup hg' hiso with ⟨f, hf⟩
  rcases exists_exchange digest hf with ⟨π, hπ, hid⟩
  rw [mem_skolemize, mem_skolemize]
  -- minting the renamed triple is minting the exchanged one
  have hmint : ∀ u ∈ g,
      skolemTriple (mint (skolemBase authority cfg.basepath) (skolemIDs digest cfg g'))
          (u.rename f) =
        skolemTriple (mint (skolemBase authority cfg.basepath) (skolemIDs digest cfg g))
          (u.rename π) := by
    intro u hu
    refine skolemTriple_rename ?_
    intro b hb
    rw [mint_eq_identifier hstable, mint_eq_identifier hstable, hid b ⟨u, hu, hb⟩]
  have hauto := (h π hπ).2
  constructor
  · rintro ⟨u', hu', rfl⟩
    rcases hf.mem_iff.mp hu' with ⟨u, hu, rfl⟩
    exact ⟨u.rename π, (hauto _).mpr ⟨u, hu, rfl⟩, (hmint u hu).symm⟩
  · rintro ⟨v, hv, rfl⟩
    rcases (hauto v).mp hv with ⟨u, hu, rfl⟩
    exact ⟨u.rename f, hf.mem_iff.mpr ⟨u, hu, rfl⟩, hmint u hu⟩

/-- Where no IRI is under the base, an exchange that changes the graph shows in the
    output. -/
theorem interchangeable_of_stableOutput {authority : List Char} (hstable : cfg.stable = true)
    (hnodup : g.Nodup) (hflat : Flat g)
    (hclean : ∀ t ∈ g, ∀ u ∈ t.iris,
      (skolemBase authority cfg.basepath).isPrefixOf u.value.toList = false)
    (h : StableOutput digest authority cfg g) : Interchangeable digest g := by
  intro π hπ
  let g' := g.map fun t => t.rename π
  have hnodup' : g'.Nodup := List.Nodup.map_on (rename_injOn hπ.inj) hnodup
  have hren : Renames π g g' := ⟨hflat, hπ.inj, .refl _⟩
  have hids : skolemIDs digest cfg g' = skolemIDs digest cfg g := by
    rw [skolemIDs, skolemIDs, if_pos hstable, if_pos hstable,
      stableBNodeIDs_exchange digest hπ hren]
  -- a renamed triple is minted as some triple of the graph is, so it is that triple
  have hmem : ∀ t ∈ g, t.rename π ∈ g := by
    intro t ht
    have hout := (h _ hnodup' ⟨π, hπ.inj, fun u => hren.mem_iff⟩ (skolemTriple (mint
      (skolemBase authority cfg.basepath) (skolemIDs digest cfg g)) (t.rename π))).mp
        (mem_skolemize.mpr ⟨t.rename π, mem_map_of_mem ht, by rw [hids]⟩)
    rcases mem_skolemize.mp hout with ⟨u, hu, heq⟩
    rw [skolemTriple_eq_bind, skolemTriple_eq_bind] at heq
    have hnodes : ∀ b ∈ (t.rename π).nodes, b ∈ graphNodes g := by
      intro b hb
      rw [TripleOf.nodes_rename] at hb
      rcases mem_map.mp hb with ⟨c, hc, rfl⟩
      exact hπ.maps ⟨t, ht, hc⟩
    rw [← TripleOf.eq_of_bind_eq (N := graphNodes g) ?_ ?_ (fun b hb => ⟨u, hu, hb⟩) hnodes
      (hclean u hu) (fun v hv => hclean t ht v (TripleOf.mem_iris_rename.mp hv)) heq]
    · exact hu
    · intro b hb c hc hmint
      have hmint := uri.inj hmint
      rw [mint_eq_identifier hstable, mint_eq_identifier hstable] at hmint
      exact identifier_injOn digest hflat hb hc (append_cancel_left (uriRef_injective hmint))
    · refine fun b _ => .inr ⟨_, fun hfalse => ?_, rfl⟩
      cases (isPrefixOf_mint _ _ b).symm.trans hfalse
  have hbij := (g.finite_toSet.injOn_iff_bijOn_of_mapsTo hmem).mp (rename_injOn hπ.inj)
  exact ⟨hπ.inj, fun t => (Set.ext_iff.mp hbij.image_eq t).symm⟩

end

/-- For graphs without triple terms: the output is the same for all isomorphic graphs
    when every exchange of nodes within their signatures is an automorphism, and where
    no IRI of the graph is under the base, only then. -/
theorem skolemize_stable (digest : Digest) (authority : List Char) (cfg : Config)
    (hstable : cfg.stable = true) (g : List Triple) (hnodup : g.Nodup) (hflat : Flat g) :
    (Interchangeable digest g → StableOutput digest authority cfg g) ∧
      ((∀ t ∈ g, ∀ u ∈ t.iris,
          (skolemBase authority cfg.basepath).isPrefixOf u.value.toList = false) →
        StableOutput digest authority cfg g → Interchangeable digest g) :=
  ⟨stableOutput_of_interchangeable authority hstable hnodup hflat,
    interchangeable_of_stableOutput hstable hnodup hflat⟩

/-! ## Twins and pairs -/

theorem mem_graphNodes_pair {t u : Triple} : b ∈ graphNodes [t, u] ↔ b ∈ t.nodes ∨ b ∈ u.nodes := by
  simp [graphNodes]

/-- Two nodes that nothing tells apart can be exchanged at will. -/
theorem interchangeable_twins : Interchangeable zeros twins := by
  intro π hπ
  refine ⟨hπ.inj, ?_⟩
  have hnodes : ∀ b, b ∈ graphNodes twins ↔ b = nodeX ∨ b = nodeY := by
    intro b
    rw [twins, mem_graphNodes_pair]
    simp [TripleOf.nodes, SubjectOf.nodes, TermOf.nodes]
  have hx := (hnodes nodeX).mpr (.inl rfl)
  have hy := (hnodes nodeY).mpr (.inr rfl)
  have hne : nodeX ≠ nodeY := by decide
  rcases (hnodes _).mp (hπ.maps hx) with hpx | hpx
  · rcases (hnodes _).mp (hπ.maps hy) with hpy | hpy
    · exact absurd (hπ.inj hx hy (hpx.trans hpy.symm)) hne
    · simp [twins, TripleOf.rename, TripleOf.bind, SubjectOf.bind, TermOf.bind, hpx, hpy, eq_comm]
  · rcases (hnodes _).mp (hπ.maps hy) with hpy | hpy
    · simp [twins, TripleOf.rename, TripleOf.bind, SubjectOf.bind, TermOf.bind, hpx, hpy, eq_comm,
        or_comm]
    · exact absurd (hπ.inj hx hy (hpx.trans hpy.symm)) hne

theorem skolemize_stable_twins : StableOutput zeros ['h'] { stable := true } twins :=
  (skolemize_stable zeros ['h'] { stable := true } rfl twins (by decide)
    (by unfold Flat; decide)).1 interchangeable_twins

/-- A hash that tells a node that is a subject from one that is an object. -/
def bySide : Digest :=
  ⟨fun text => if text.head? = some '@' then ['a'] else ['b'], by
    intro text c hc
    split_ifs at hc
    · rw [mem_singleton.mp hc]
      decide
    · rw [mem_singleton.mp hc]
      decide⟩

/-- A blank node with a letter for its label. -/
def letter (c : Char) : BNode :=
  ⟨String.ofList [c], all_eq_true.mpr fun _ _ => rfl, by
    intro h
    have hnil := congrArg String.toList h
    simp at hnil⟩

/-- Two nodes linked to two others. -/
def linked (x y : BNode) : List Triple :=
  [⟨.bnode (letter 'a'), uriRef ['p'], .subject (.bnode x)⟩,
   ⟨.bnode (letter 'b'), uriRef ['p'], .subject (.bnode y)⟩]

/-- Both nodes of a kind are exchanged, the other kind with them. -/
def swapBoth (b : BNode) : BNode :=
  Equiv.swap (letter 'a') (letter 'b') (Equiv.swap (letter 'c') (letter 'd') b)

/-- Two nodes are exchanged by an automorphism. -/
def Exchanged (g : List Triple) (b c : BNode) : Prop :=
  ∃ π, Automorphism g π ∧ π b = c ∧ π c = b

theorem mem_graphNodes_linked {x y : BNode} (h : b ∈ graphNodes (linked x y)) :
    b ∈ [letter 'a', letter 'b'] ∨ b ∈ [x, y] := by
  rw [linked, mem_graphNodes_pair] at h
  simp only [TripleOf.nodes, SubjectOf.nodes, TermOf.nodes, cons_append, nil_append, mem_cons,
    not_mem_nil, or_false] at h ⊢
  tauto

theorem automorphism_id (g : List Triple) (hflat : Flat g) : Automorphism g id := by
  refine ⟨Set.injOn_id _, fun t => ?_⟩
  exact (Renames.refl hflat).mem_iff

/-- In two pairs, nodes of one signature are exchanged by an automorphism. -/
theorem exchanged_linked {x y : BNode} (hflat : Flat (linked x y)) (hx : swapBoth x = y)
    (hy : swapBoth y = x)
    (hsides : ∀ b ∈ [letter 'a', letter 'b'], ∀ c ∈ [x, y],
      finalSignature bySide (linked x y) b ≠ finalSignature bySide (linked x y) c) :
    ∀ b ∈ graphNodes (linked x y), ∀ c ∈ graphNodes (linked x y),
      finalSignature bySide (linked x y) b = finalSignature bySide (linked x y) c →
        Exchanged (linked x y) b c := by
  have ha : swapBoth (letter 'a') = letter 'b' := by decide
  have hb : swapBoth (letter 'b') = letter 'a' := by decide
  have hswap : Automorphism (linked x y) swapBoth := by
    refine ⟨fun b _ c _ heq => (Equiv.swap _ _).injective ((Equiv.swap _ _).injective heq), ?_⟩
    simp [linked, TripleOf.rename, TripleOf.bind, SubjectOf.bind, TermOf.bind, ha, hb, hx, hy,
      eq_comm, or_comm]
  -- Two nodes of one side are exchanged by the swap, or are one node.
  have hboth : ∀ {p q : BNode}, swapBoth p = q → swapBoth q = p → ∀ b ∈ [p, q], ∀ c ∈ [p, q],
      Exchanged (linked x y) b c := by
    intro p q hp hq b hb c hc
    simp only [mem_cons, not_mem_nil, or_false] at hb hc
    rcases hb with rfl | rfl <;> rcases hc with rfl | rfl
    · exact ⟨id, automorphism_id _ hflat, rfl, rfl⟩
    · exact ⟨swapBoth, hswap, hp, hq⟩
    · exact ⟨swapBoth, hswap, hq, hp⟩
    · exact ⟨id, automorphism_id _ hflat, rfl, rfl⟩
  intro b hbg c hcg hsig
  rcases mem_graphNodes_linked hbg with hbs | hbs
  · rcases mem_graphNodes_linked hcg with hcs | hcs
    · exact hboth ha hb b hbs c hcs
    · exact absurd hsig (hsides b hbs c hcs)
  · rcases mem_graphNodes_linked hcg with hcs | hcs
    · exact absurd hsig.symm (hsides c hcs b hbs)
    · exact hboth hx hy b hbs c hcs

/-- The labels of two pairs, in order. -/
def fourLabels : List (List Char) :=
  [['a'], ['b'], ['c'], ['d']]

theorem labels_eq_fourLabels (h : (g.flatMap topLabels).dedup.Perm fourLabels) :
    labels g = fourLabels := by
  rw [labels, mergeSort_eq_of_perm h]
  exact mergeSort_of_pairwise (by decide)

section

variable {g : List Triple} {l : List Char} {t : Triple} {b : BNode} (hl : incident g l = [t])
  (hb : t.subject = .bnode b) (sig : Signatures)
include hl hb

theorem surroundings_singleton : surroundings g sig l =
    repr sig l (.subject (.bnode b)) ++ ' ' :: t.predicate.n3 ++ ' ' :: repr sig l t.object := by
  rw [surroundings, hl]
  simp [hb]

theorem sum_subject (heq : label b = l) : bySide.sum (surroundings g sig l) = ['a'] := by
  rw [surroundings_singleton hl hb, repr, if_pos heq]
  rfl

theorem sum_object (hne : label b ≠ l) : bySide.sum (surroundings g sig l) = ['b'] := by
  rw [surroundings_singleton hl hb, repr, if_neg hne]
  rfl

end

/-- The signatures of two pairs. -/
def sideSignatures : Signatures :=
  [(['a'], ['a']), (['b'], ['a']), (['c'], ['b']), (['d'], ['b'])]

/-- Every round gives two pairs the same signatures, whichever way they are linked. -/
theorem linked_signatures {x y : BNode}
    (h : x = letter 'c' ∧ y = letter 'd' ∨ x = letter 'd' ∧ y = letter 'c') :
    stableBNodeIDs bySide (linked x y) = number sideSignatures fourLabels [] ∧
      finalSignatures bySide (linked x y) = sideSignatures := by
  have hlabels : labels (linked x y) = fourLabels := by
    refine labels_eq_fourLabels ?_
    rcases h with ⟨rfl, rfl⟩ | ⟨rfl, rfl⟩
    · decide
    · decide
  have hnext : ∀ sig, nextSignatures bySide (linked x y) sig = sideSignatures := by
    intro sig
    rw [nextSignatures, hlabels]
    simp only [fourLabels, map_cons, map_nil, sideSignatures]
    rcases h with ⟨rfl, rfl⟩ | ⟨rfl, rfl⟩ <;>
      rw [sum_subject (l := ['a']) rfl rfl sig rfl, sum_subject (l := ['b']) rfl rfl sig rfl,
        sum_object (l := ['c']) rfl rfl sig (by decide),
        sum_object (l := ['d']) rfl rfl sig (by decide)]
  rcases exists_refine_eq bySide (linked x y) 15 0 1 ((labels (linked x y)).map fun l => (l, []))
    with ⟨sig, hsig⟩
  have hfinal : finalSignatures bySide (linked x y) = sideSignatures := hsig.trans (hnext sig)
  refine ⟨?_, hfinal⟩
  show number (finalSignatures bySide (linked x y)) (labels (linked x y)) [] = _
  rw [hfinal, hlabels]

/-- Two pairs, and the same two pairs with the labels of the second nodes exchanged: any
    two nodes of one signature are exchanged by an automorphism, but the outputs link
    different IRIs. -/
theorem skolemize_pairs :
    let straight := linked (letter 'c') (letter 'd')
    let crossed := linked (letter 'd') (letter 'c')
    Flat straight ∧ Flat crossed ∧ Isomorphic straight crossed ∧
      (∀ b ∈ graphNodes straight, ∀ c ∈ graphNodes straight,
        finalSignature bySide straight b = finalSignature bySide straight c →
          Exchanged straight b c) ∧
      (∀ b ∈ graphNodes crossed, ∀ c ∈ graphNodes crossed,
        finalSignature bySide crossed b = finalSignature bySide crossed c →
          Exchanged crossed b c) ∧
      ¬ ∀ t, t ∈ skolemize bySide ['h'] { stable := true } crossed ↔
        t ∈ skolemize bySide ['h'] { stable := true } straight := by
  have hstraight : Flat (linked (letter 'c') (letter 'd')) := by unfold Flat; decide
  have hcrossed : Flat (linked (letter 'd') (letter 'c')) := by unfold Flat; decide
  have hstraights := linked_signatures (.inl ⟨rfl, rfl⟩)
  have hcrosseds := linked_signatures (.inr ⟨rfl, rfl⟩)
  refine ⟨hstraight, hcrossed, ?_, ?_, ?_, ?_⟩
  · refine ⟨Equiv.swap (letter 'c') (letter 'd'), (Equiv.injective _).injOn, ?_⟩
    have hmap : linked (letter 'd') (letter 'c') = (linked (letter 'c') (letter 'd')).map
        fun t => t.rename (Equiv.swap (letter 'c') (letter 'd')) := by decide
    intro t
    rw [hmap, mem_map]
  · refine exchanged_linked hstraight (by decide) (by decide) ?_
    unfold finalSignature
    rw [hstraights.2]
    decide
  · refine exchanged_linked hcrossed (by decide) (by decide) ?_
    unfold finalSignature
    rw [hcrosseds.2]
    decide
  · -- the first node of each kind has no number behind its signature
    intro h
    have hone := h ⟨.uri (uriRef "h/.well-known/genid/a".toList), uriRef ['p'],
      .subject (.uri (uriRef "h/.well-known/genid/b".toList))⟩
    unfold skolemize skolemIDs at hone
    rw [hstraights.1, hcrosseds.1] at hone
    revert hone
    decide +kernel

end Skolem

end GoRdf
