import GoRdf.Core.Skolem
import GoRdf.Lib.AssocList
import GoRdf.Lib.Iterate
import GoRdf.Lib.Delimited
import GoRdf.Theory.Isomorphism

/-!
# Skolemizing and Back

`DeSkolemize` undoes `Skolemize` exactly when no blank node is inside a triple
term.

Minting goes into triple terms and unminting does not: the IRI it leaves there is
one the graph did not have, so the result is not the graph up to renaming. Without
such nodes every blank node has an identifier of its own. By label that is plain.
By structure it rests on the numbers: signatures are hexadecimal, so what stands
before the hyphen is the signature and what stands behind it the number, and nodes
with one signature have different numbers.

## Main definitions

* `innerNodes`: The blank nodes inside the triple terms of a triple.
* `restoreSubject`: `unmint` with a finished node map.

## Theorems

* `numbered_injective`: An identifier gives away its signature and its number.
* `mint_injOn`: Different nodes get different IRIs.
* `mem_deSkolemizeFrom`: What the loop of `DeSkolemize` adds.
* `deSkolemize_skolemize_iff`: When the round trip is right.
-/

namespace GoRdf

open List SubjectOf

namespace Skolem

variable {t : Triple} {b : BNode} {sig : Signatures} {g : List Triple} {s : Subject}

/-! ## Identifiers -/

theorem numbered_injective {s s' : List Char} {k k' : Nat} (hs : '-' ∉ s) (hs' : '-' ∉ s')
    (h : numbered s k = numbered s' k') : s = s' ∧ k = k' := by
  unfold numbered at h
  split_ifs at h with hk hk' hk'
  · exact ⟨h, by omega⟩
  · rw [h] at hs
    exact absurd (by simp) hs
  · rw [← h] at hs'
    exact absurd (by simp) hs'
  · have hno : ∀ {s : List Char}, '-' ∉ s → ∀ c ∈ s, (c == '-') = false :=
      fun hs c hc => beq_false_of_ne (ne_of_mem_of_not_mem hc hs)
    rcases Lib.append_inj_of_stops (hno hs) (hno hs') (.cons rfl _) (.cons rfl _) h
      with ⟨hss, hdigits⟩
    exact ⟨hss, Lib.toDigits_injective (List.cons.inj hdigits).2⟩

/-! ## The identifiers of a graph -/

section

variable {digest : Digest} {triples : List Triple}

/-- Every round gives a node a hash, so the last one does. -/
theorem exists_refine_eq (digest : Digest) (triples : List Triple) :
    ∀ (rounds round classes : Nat) (sig : Signatures),
    ∃ sig', refine digest triples (rounds + 1) round classes sig =
      nextSignatures digest triples sig'
  | 0, round, classes, sig => by
    refine ⟨sig, ?_⟩
    rw [refine]
    split_ifs
    · rfl
    · rfl
  | rounds + 1, round, classes, sig => by
    rw [refine]
    split_ifs
    · exact ⟨sig, rfl⟩
    · exact exists_refine_eq digest triples rounds _ _ _

/-- The signatures nodes are numbered by have no hyphen. -/
theorem dash_not_mem_signature {l : List Char} (hl : l ∈ labels triples) (sig : Signatures) :
    '-' ∉ ((nextSignatures digest triples sig).lookup l).getD [] := by
  rw [nextSignatures, Lib.lookup_map_pair _ hl]
  exact fun h => absurd (digest.hex _ _ h) (by decide)

/-- The signature of a label. -/
def signatureOf (sig : Signatures) (l : List Char) : List Char :=
  (sig.lookup l).getD []

/-- The identifiers number the nodes of one signature upwards, from the number of
    times it was seen. -/
theorem mem_number : ∀ {ls seen : List (List Char)} {l id : List Char},
    (l, id) ∈ number sig ls seen → l ∈ ls ∧ ∃ k, seen.count (signatureOf sig l) ≤ k ∧
      k < seen.count (signatureOf sig l) + (ls.map (signatureOf sig)).count (signatureOf sig l) ∧
        id = numbered (signatureOf sig l) k
  | l' :: ls, seen, l, id, h => by
    rw [number, mem_cons] at h
    rcases h with h | h
    · rcases Prod.mk.inj h with ⟨rfl, rfl⟩
      refine ⟨mem_cons_self, _, le_refl _, ?_, rfl⟩
      rw [map_cons, count_cons_self]
      unfold signatureOf
      omega
    · rcases mem_number h with ⟨hl, k, hle, hlt, hid⟩
      refine ⟨mem_cons_of_mem _ hl, k, le_trans count_le_count_cons hle, ?_, hid⟩
      rw [count_cons] at hlt
      rw [map_cons, count_cons]
      unfold signatureOf at hlt ⊢
      omega

theorem map_fst_number : ∀ (ls seen : List (List Char)),
    (number sig ls seen).map Prod.fst = ls
  | [], _ => rfl
  | l :: ls, seen => by rw [number, map_cons, map_fst_number]

/-- No identifier is given twice. -/
theorem nodup_number : ∀ {ls seen : List (List Char)},
    (∀ l ∈ ls, '-' ∉ (sig.lookup l).getD []) → ((number sig ls seen).map Prod.snd).Nodup
  | [], _, _ => nodup_nil
  | l :: ls, seen, h => by
    rw [number, map_cons, nodup_cons]
    refine ⟨?_, nodup_number fun l' hl' => h l' (mem_cons_of_mem _ hl')⟩
    intro hmem
    rcases mem_map.mp hmem with ⟨⟨l', id⟩, hid, heq⟩
    rcases mem_number hid with ⟨hl', k, hk, -, hnum⟩
    unfold signatureOf at hk hnum
    dsimp only at heq
    rw [hnum] at heq
    rcases numbered_injective (h l' (mem_cons_of_mem _ hl')) (h l mem_cons_self) heq
      with ⟨hsig, hcount⟩
    -- The later node was numbered with one more of its signature seen.
    rw [hsig, count_cons_self] at hk
    omega

/-- Labels of nodes that are subjects or objects have identifiers of their own. -/
theorem stableBNodeIDs_spec (digest : Digest) (triples : List Triple) :
    ((stableBNodeIDs digest triples).map Prod.snd).Nodup ∧
      ∀ l ∈ labels triples, ∃ id, (stableBNodeIDs digest triples).lookup l = some id := by
  unfold stableBNodeIDs
  rcases exists_refine_eq digest triples 15 0 1 ((labels triples).map fun l => (l, []))
    with ⟨sig, hsig⟩
  dsimp only
  rw [skolemRounds, hsig]
  constructor
  · exact nodup_number fun l hl => dash_not_mem_signature hl sig
  · intro l hl
    exact Lib.exists_lookup (by rw [map_fst_number]; exact hl)

end

/-! ## Nodes inside triple terms -/

/-- The blank nodes inside a subject that is a triple term. -/
def innerOfSubject : Subject → List BNode
  | .triple s _ o => s.nodes ++ o.nodes
  | _ => []

/-- The blank nodes inside a term that is a triple term. -/
def innerOfTerm : Term → List BNode
  | .subject s => innerOfSubject s
  | .literal _ => []

/-- The blank nodes inside the triple terms of a triple. -/
def innerNodes (t : Triple) : List BNode :=
  innerOfSubject t.subject ++ innerOfTerm t.object

/-- A blank node of a triple is its subject or object, or inside one. -/
theorem mem_nodes_iff :
    b ∈ t.nodes ↔ t.subject = .bnode b ∨ t.object = .subject (.bnode b) ∨ b ∈ innerNodes t := by
  have hsubject : ∀ s : Subject, b ∈ s.nodes ↔ s = .bnode b ∨ b ∈ innerOfSubject s := by
    intro s
    cases s with
    | uri u => simp [SubjectOf.nodes, innerOfSubject]
    | bnode b' => simp [SubjectOf.nodes, innerOfSubject, eq_comm]
    | triple s p o => simp [SubjectOf.nodes, innerOfSubject]
  have hterm : ∀ o : Term, b ∈ o.nodes ↔ o = .subject (.bnode b) ∨ b ∈ innerOfTerm o := by
    intro o
    cases o with
    | subject s => simpa [TermOf.nodes, innerOfTerm] using hsubject s
    | literal l => simp [TermOf.nodes, innerOfTerm]
  rw [TripleOf.nodes, mem_append, hsubject, hterm, innerNodes, mem_append]
  tauto

theorem label_mem_labels (ht : t ∈ g) (hb : t.subject = .bnode b ∨ t.object = .subject (.bnode b)) :
    label b ∈ labels g := by
  rw [labels, mem_mergeSort, mem_dedup]
  refine mem_flatMap.mpr ⟨t, ht, mem_filterMap.mpr ?_⟩
  rcases hb with hb | hb
  · exact ⟨.subject t.subject, by simp, by rw [hb]; rfl⟩
  · exact ⟨t.object, by simp, by rw [hb]; rfl⟩

theorem label_injective {b' : BNode} (h : label b = label b') : b = b' := by
  cases b
  simp only [label, String.toList_inj] at h
  subst h
  rfl

theorem ext_value {u v : URIRef} (h : u.value.toList = v.value.toList) : u = v := by
  cases u
  simp only [String.toList_inj] at h
  subst h
  rfl

theorem uriRef_injective {v w : List Char} (h : uriRef v = uriRef w) : v = w :=
  String.ofList_injective (congrArg URIRefOf.value h)

/-- Different nodes get different IRIs, if none is only inside triple terms. -/
theorem mint_injOn (digest : Digest) (base : List Char) (cfg : Config)
    (hinner : ∀ t ∈ g, innerNodes t = []) :
    Set.InjOn (mint base (skolemIDs digest cfg g)) (graphNodes g) := by
  rintro b ⟨t, ht, hb⟩ b' ⟨t', ht', hb'⟩ heq
  have hids := append_cancel_left (uriRef_injective heq)
  have hlabel : ∀ {t b}, t ∈ g → b ∈ t.nodes → label b ∈ labels g := by
    intro t b ht hb
    rw [mem_nodes_iff, hinner t ht] at hb
    exact label_mem_labels ht (by simpa using hb)
  refine label_injective ?_
  unfold skolemIDs at hids
  split_ifs at hids with hstable
  · rcases stableBNodeIDs_spec digest g with ⟨hnodup, hlookup⟩
    rcases hlookup _ (hlabel ht hb) with ⟨id, hid⟩
    rcases hlookup _ (hlabel ht' hb') with ⟨id', hid'⟩
    rw [hid, hid', Option.getD_some] at hids
    exact Lib.lookup_injective hnodup hid (hids ▸ hid')
  · exact hids

/-! ## The loop of the way back -/

section

variable (base : List Char)

/-- `unmintSubject` with a finished node map. -/
def restoreSubject (nodes : NodeMap) : Subject → Subject
  | .uri u =>
    if base.isPrefixOf u.value.toList then
      match nodes.lookup u.value.toList with
      | some b => .bnode b
      | none => .uri u
    else .uri u
  | s => s

/-- `unmint` with a finished node map. -/
def restoreTerm (nodes : NodeMap) : Term → Term
  | .subject s => .subject (restoreSubject base nodes s)
  | .literal l => .literal l

/-- A triple with a finished node map. -/
def restore (nodes : NodeMap) (t : Triple) : Triple :=
  ⟨restoreSubject base nodes t.subject, t.predicate, restoreTerm base nodes t.object⟩

/-- The node map has a node for the subject, if it is an IRI under the base. -/
def Covers (nodes : NodeMap) (s : Subject) : Prop :=
  ∀ u, s = .uri u → base.isPrefixOf u.value.toList = true →
    ∃ b, nodes.lookup u.value.toList = some b

/-- One node map knows what the other does. -/
def Extends (nodes nodes' : NodeMap) : Prop :=
  ∀ k b, nodes.lookup k = some b → nodes'.lookup k = some b

/-- The nodes of a map are different, and were taken from the supply. -/
structure Distinct (supply : Supply) (nodes : NodeMap) : Prop where
  nodup : (nodes.map Prod.snd).Nodup
  supplied : ∀ p ∈ nodes, ∃ i < nodes.length, p.2 = supply.node i

variable {base} {supply : Supply} {nodes nodes' : NodeMap}

theorem Covers.mono (h : Covers base nodes s) (hext : Extends nodes nodes') :
    Covers base nodes' s := by
  intro u hu hbase
  rcases h u hu hbase with ⟨b, hb⟩
  exact ⟨b, hext _ b hb⟩

theorem restoreSubject_of_extends (h : Covers base nodes s) (hext : Extends nodes nodes') :
    restoreSubject base nodes' s = restoreSubject base nodes s := by
  cases s with
  | bnode b | triple s p o => rfl
  | uri u =>
    simp only [restoreSubject]
    split_ifs with hbase
    · rcases h u rfl hbase with ⟨b, hb⟩
      rw [hb, hext _ b hb]
    · rfl

/-- A fresh node keeps the nodes different. -/
theorem Distinct.cons (h : Distinct supply nodes) (k : List Char) :
    Distinct supply ((k, supply.node nodes.length) :: nodes) where
  nodup := by
    rw [map_cons, nodup_cons]
    refine ⟨?_, h.nodup⟩
    intro hmem
    rcases mem_map.mp hmem with ⟨p, hp, heq⟩
    rcases h.supplied p hp with ⟨i, hi, hnode⟩
    have hsame := supply.injective _ _ (hnode.symm.trans heq)
    omega
  supplied := by
    intro p hp
    rcases mem_cons.mp hp with rfl | hp
    · exact ⟨nodes.length, by simp, rfl⟩
    · rcases h.supplied p hp with ⟨i, hi, hnode⟩
      exact ⟨i, by simp; omega, hnode⟩

/-- What one call of `unmint` does to a subject and to the node map. -/
theorem unmintSubject_spec (base : List Char) (h : Distinct supply nodes) (s : Subject) :
    Distinct supply (unmintSubject base supply nodes s).2 ∧
      Extends nodes (unmintSubject base supply nodes s).2 ∧
      Covers base (unmintSubject base supply nodes s).2 s ∧
      (unmintSubject base supply nodes s).1 =
        restoreSubject base (unmintSubject base supply nodes s).2 s := by
  cases s with
  | bnode b | triple s p o => exact ⟨h, fun _ _ hk => hk, fun u hu => by simp at hu, rfl⟩
  | uri u =>
    by_cases hbase : base.isPrefixOf u.value.toList = true
    · simp only [unmintSubject, restoreSubject, if_pos hbase]
      cases hlookup : nodes.lookup u.value.toList with
      | some b =>
        refine ⟨h, fun _ _ hk => hk, ?_, by simp only [hlookup]⟩
        intro u' hu' _
        rw [← uri.inj hu']
        exact ⟨b, hlookup⟩
      -- A name not met before takes the next node of the supply; no older entry has that name.
      | none =>
        refine ⟨h.cons _, ?_, ?_, by simp⟩
        · intro k b hk
          rw [Lib.lookup_cons_eq, if_neg]
          · exact hk
          · rintro rfl
            rw [hlookup] at hk
            cases hk
        · intro u' hu' _
          rw [← uri.inj hu']
          exact ⟨_, by rw [Lib.lookup_cons_eq, if_pos rfl]⟩
    · simp only [unmintSubject, restoreSubject, if_neg hbase]
      refine ⟨h, fun _ _ hk => hk, ?_, trivial⟩
      intro u' hu' hbase'
      rw [← uri.inj hu'] at hbase'
      exact absurd hbase' hbase

/-- The same for a triple, subject before object. -/
theorem unmint_spec (base : List Char) (h : Distinct supply nodes) (t : Term) :
    Distinct supply (unmint base supply nodes t).2 ∧
      Extends nodes (unmint base supply nodes t).2 ∧
      (∀ s, t = .subject s → Covers base (unmint base supply nodes t).2 s) ∧
      (unmint base supply nodes t).1 = restoreTerm base (unmint base supply nodes t).2 t := by
  cases t with
  | literal l => exact ⟨h, fun _ _ hk => hk, fun s hs => by simp at hs, rfl⟩
  | subject s =>
    rcases unmintSubject_spec base h s with ⟨hdistinct, hext, hcovers, heq⟩
    refine ⟨hdistinct, hext, ?_, congrArg TermOf.subject heq⟩
    intro s' hs'
    rw [← TermOf.subject.inj hs']
    exact hcovers

theorem restoreTerm_of_extends {t : Term} (h : ∀ s, t = .subject s → Covers base nodes s)
    (hext : Extends nodes nodes') : restoreTerm base nodes' t = restoreTerm base nodes t := by
  cases t with
  | literal l => rfl
  | subject s => exact congrArg TermOf.subject (restoreSubject_of_extends (h s rfl) hext)

theorem mem_add {out : List Triple} {u : Triple} : t ∈ add out u ↔ t ∈ out ∨ u = t := by
  rw [add, Lib.mem_addNew, eq_comm]

/-- The loop adds what a finished node map makes of the triples. -/
theorem mem_deSkolemizeFrom (base : List Char) (supply : Supply) :
    ∀ (ts : List Triple) (nodes : NodeMap) (out : List Triple),
    Distinct supply nodes → ∃ nodes', Distinct supply nodes' ∧ Extends nodes nodes' ∧
      (∀ t ∈ ts, Covers base nodes' t.subject ∧ ∀ s, t.object = .subject s → Covers base nodes' s) ∧
      ∀ t, t ∈ deSkolemizeFrom base supply ts nodes out ↔
        t ∈ out ∨ ∃ u ∈ ts, restore base nodes' u = t
  | [], nodes, out, h => ⟨nodes, h, fun _ _ hk => hk, by simp, by simp [deSkolemizeFrom]⟩
  | t :: ts, nodes, out, h => by
    rcases unmintSubject_spec base h t.subject with ⟨hs, hexts, hcovs, heqs⟩
    rcases unmint_spec base hs t.object with ⟨ho, hexto, hcovo, heqo⟩
    set s := unmintSubject base supply nodes t.subject
    set o := unmint base supply s.2 t.object
    rcases mem_deSkolemizeFrom base supply ts o.2 (add out ⟨s.1, t.predicate, o.1⟩) ho
      with ⟨nodes', hnodes', hext, hcovers, hmem⟩
    have hextall : Extends s.2 nodes' := fun k b hk => hext k b (hexto k b hk)
    refine ⟨nodes', hnodes', fun k b hk => hextall k b (hexts k b hk), ?_, ?_⟩
    · intro u hu
      rcases mem_cons.mp hu with rfl | hu
      · exact ⟨hcovs.mono hextall, fun s hsub => (hcovo s hsub).mono hext⟩
      · exact hcovers u hu
    · intro u
      -- The map only grows, so what was restored early is what it restores in the end.
      have hrestore : restore base nodes' t = ⟨s.1, t.predicate, o.1⟩ := by
        rw [heqs, heqo, restore, restoreSubject_of_extends hcovs hextall,
          restoreTerm_of_extends hcovo hext]
      show u ∈ deSkolemizeFrom base supply ts o.2 (add out ⟨s.1, t.predicate, o.1⟩) ↔ _
      rw [hmem, mem_add, exists_mem_cons_iff, hrestore, or_assoc]

end

/-! ## The round trip -/

section

variable {μ : BNode → URIRef}

mutual

theorem skolemSubject_eq_bind : ∀ s : Subject, skolemSubject μ s = s.bind fun b => .uri (μ b)
  | .uri _ | .bnode _ => rfl
  | .triple s p o => by
    rw [skolemSubject, SubjectOf.bind, skolemSubject_eq_bind s, skolemTerm_eq_bind o]

theorem skolemTerm_eq_bind : ∀ t : Term, skolemTerm μ t = t.bind fun b => .uri (μ b)
  | .subject s => congrArg TermOf.subject (skolemSubject_eq_bind s)
  | .literal _ => rfl

end

end

theorem mem_skolemize {digest : Digest} {authority : List Char} {cfg : Config} :
    t ∈ skolemize digest authority cfg g ↔
      ∃ u ∈ g, skolemTriple (mint (skolemBase authority cfg.basepath) (skolemIDs digest cfg g)) u
        = t := by
  rw [skolemize, Lib.foldl_iff (M := (t ∈ ·)) fun _ u => mem_add (u := skolemTriple _ u)]
  exact or_iff_right not_mem_nil

section

variable {base : List Char} {μ : BNode → URIRef} {nodes : NodeMap}

/-- A subject without blank nodes inside it: what is minted is restored as a blank
    node, by the same renaming everywhere. -/
theorem restoreSubject_skolemSubject (hinner : innerOfSubject s = [])
    (hclean : ∀ u ∈ s.iris, base.isPrefixOf u.value.toList = false)
    (hbase : ∀ b, base.isPrefixOf (μ b).value.toList = true)
    (hcovers : Covers base nodes (skolemSubject μ s)) :
    restoreSubject base nodes (skolemSubject μ s) =
      s.bind fun b => .bnode ((nodes.lookup (μ b).value.toList).getD b) := by
  cases s with
  | uri u =>
    have hu := hclean u (by simp [SubjectOf.iris])
    simp [skolemSubject, restoreSubject, SubjectOf.bind, hu]
  | bnode b =>
    rcases hcovers (μ b) rfl (hbase b) with ⟨b', hb'⟩
    simp [skolemSubject, restoreSubject, SubjectOf.bind, hbase b, hb']
  | triple s p o =>
    have hground : (SubjectOf.triple s p o).nodes = [] := hinner
    rw [skolemSubject_eq_bind, bind_of_fixed (by simp [hground]),
      bind_of_fixed (by simp [hground])]
    rfl

theorem restore_skolemTriple (hinner : innerNodes t = [])
    (hclean : ∀ u ∈ t.iris, base.isPrefixOf u.value.toList = false)
    (hbase : ∀ b, base.isPrefixOf (μ b).value.toList = true)
    (hcovers : Covers base nodes (skolemTriple μ t).subject ∧
      ∀ s, (skolemTriple μ t).object = .subject s → Covers base nodes s) :
    restore base nodes (skolemTriple μ t) =
      t.rename fun b => (nodes.lookup (μ b).value.toList).getD b := by
  rcases append_eq_nil_iff.mp hinner with ⟨hsubject, hobject⟩
  have hleft := restoreSubject_skolemSubject hsubject
    (fun u hu => hclean u (by simp [TripleOf.iris, hu])) hbase hcovers.1
  rcases t with ⟨s, p, o⟩
  cases o with
  | literal l => simp only [restore, skolemTriple, TripleOf.rename, TripleOf.bind, hleft]; rfl
  | subject o =>
    have hright := restoreSubject_skolemSubject hobject
      (fun u hu => hclean u (by simp [TripleOf.iris, TermOf.iris, hu])) hbase
      (hcovers.2 _ rfl)
    simp only [restore, skolemTriple, skolemTerm, restoreTerm, TripleOf.rename, TripleOf.bind,
      TermOf.bind, hleft, hright]

/-- An IRI that was minted inside a triple term stays. -/
theorem mem_iris_restore (base : List Char) (nodes : NodeMap) (hb : b ∈ innerNodes t) :
    μ b ∈ (restore base nodes (skolemTriple μ t)).iris := by
  have hsubject : ∀ s : Subject, b ∈ innerOfSubject s →
      μ b ∈ (restoreSubject base nodes (skolemSubject μ s)).iris := by
    intro s hs
    cases s with
    | uri u | bnode b' => simp [innerOfSubject] at hs
    | triple s p o =>
      have hmem : b ∈ (SubjectOf.triple s p o).nodes := hs
      change μ b ∈ (skolemSubject μ (.triple s p o)).iris
      rw [skolemSubject_eq_bind, mem_iris_bind]
      exact .inr ⟨b, hmem, by simp [SubjectOf.iris]⟩
  rw [TripleOf.iris, mem_append, mem_cons]
  rcases mem_append.mp hb with hb | hb
  · exact .inl (hsubject _ hb)
  · rcases t with ⟨s, p, o⟩
    cases o with
    | literal l => simp [innerOfTerm] at hb
    | subject o => exact .inr (.inr (hsubject o hb))

end

theorem isPrefixOf_mint (base : List Char) (ids : List (List Char × List Char)) (b : BNode) :
    base.isPrefixOf (mint base ids b).value.toList = true := by
  rw [mint, uriRef, String.toList_ofList, isPrefixOf_iff_prefix]
  exact prefix_append _ _

/-- For a graph without IRIs under the base, and any order in which the store lists
    what was skolemized: the way back gives the graph up to blank nodes, and
    different nodes got different IRIs, exactly when no blank node is inside a
    triple term. -/
theorem deSkolemize_skolemize_iff (digest : Digest) (supply : Supply) (authority : List Char)
    (cfg : Config) (g h : List Triple)
    (hclean : ∀ t ∈ g, ∀ u ∈ t.iris,
      (skolemBase authority cfg.basepath).isPrefixOf u.value.toList = false)
    (hlist : h.Perm (skolemize digest authority cfg g)) :
    (Isomorphic g (deSkolemize supply authority cfg h) ∧
        Set.InjOn (mint (skolemBase authority cfg.basepath) (skolemIDs digest cfg g))
          (graphNodes g)) ↔
      ∀ t ∈ g, innerNodes t = [] := by
  have hrows := fun r => (hlist.mem_iff (a := r)).trans mem_skolemize
  rw [deSkolemize]
  generalize skolemBase authority cfg.basepath = base at *
  rcases mem_deSkolemizeFrom base supply h [] [] ⟨nodup_nil, by simp⟩ with
    ⟨nodes, hdistinct, -, hcovers, hmem⟩
  have hbase := isPrefixOf_mint base (skolemIDs digest cfg g)
  have hmint := mint_injOn digest base cfg (g := g)
  set μ := mint base (skolemIDs digest cfg g)
  have hskolem : ∀ u ∈ g, skolemTriple μ u ∈ h := fun u hu => (hrows _).mpr ⟨u, hu, rfl⟩
  constructor
  · rintro ⟨⟨f, -, hiso⟩, -⟩ t ht
    rw [eq_nil_iff_forall_not_mem]
    intro b hb
    have hresult := (hmem _).mpr (.inr ⟨_, hskolem t ht, rfl⟩)
    rcases (hiso _).mp hresult with ⟨u, hu, heq⟩
    -- The IRI that stayed would have to be one of the graph.
    have hiri := mem_iris_restore base nodes (μ := μ) hb
    rw [← heq, TripleOf.mem_iris_rename] at hiri
    have hfalse := hclean u hu _ hiri
    rw [hbase b] at hfalse
    cases hfalse
  · intro hinner
    have hinj := hmint hinner
    refine ⟨⟨fun b => (nodes.lookup (μ b).value.toList).getD b, ?_, ?_⟩, hinj⟩
    · rintro b ⟨t, ht, hb⟩ b' ⟨t', ht', hb'⟩ heq
      have hlookup : ∀ {t b}, t ∈ g → b ∈ t.nodes →
          ∃ c, nodes.lookup (μ b).value.toList = some c := by
        intro t b ht hb
        have hcov := hcovers _ (hskolem t ht)
        rw [mem_nodes_iff, hinner t ht] at hb
        rcases hb with hb | hb | hb
        · refine hcov.1 _ ?_ (hbase b)
          simp [skolemTriple, hb, skolemSubject]
        · refine hcov.2 (.uri (μ b)) ?_ _ rfl (hbase b)
          simp [skolemTriple, hb, skolemTerm, skolemSubject]
        · cases hb
      rcases hlookup ht hb with ⟨c, hc⟩
      rcases hlookup ht' hb' with ⟨c', hc'⟩
      dsimp only at heq
      rw [hc, hc', Option.getD_some, Option.getD_some] at heq
      have hkeys := Lib.lookup_injective hdistinct.nodup hc (heq ▸ hc')
      refine hinj ⟨t, ht, hb⟩ ⟨t', ht', hb'⟩ ?_
      exact ext_value hkeys
    · intro t
      rw [hmem]
      simp only [not_mem_nil, false_or]
      have hrestore : ∀ u ∈ g, restore base nodes (skolemTriple μ u) =
          u.rename fun b => (nodes.lookup (μ b).value.toList).getD b := fun u hu =>
        restore_skolemTriple (hinner u hu) (hclean u hu) hbase (hcovers _ (hskolem u hu))
      constructor
      · rintro ⟨r, hr, rfl⟩
        rcases (hrows r).mp hr with ⟨u, hu, rfl⟩
        exact ⟨u, hu, (hrestore u hu).symm⟩
      · rintro ⟨u, hu, rfl⟩
        exact ⟨_, hskolem u hu, hrestore u hu⟩

/-- A hash that tells nothing apart. -/
def zeros : Digest :=
  ⟨fun _ => ['0'], by
    intro _ c hc
    rw [mem_singleton.mp hc]
    decide⟩

/-- Blank nodes with a number behind a letter. -/
def lettered : Supply where
  node := fun n => ⟨String.ofList ('b' :: Nat.toDigits 10 n), all_eq_true.mpr fun _ _ => rfl, by
      intro h
      have hnil := congrArg String.toList h
      simp at hnil⟩
  injective := by
    intro m n h
    have hlist := String.ofList_injective (congrArg BNodeOf.value h)
    exact Lib.toDigits_injective (List.cons.inj hlist).2

/-- A blank node with the label `x`. -/
def nodeX : BNode :=
  ⟨"x", all_anyChar "x", by decide⟩

/-- A blank node with the label `y`. -/
def nodeY : BNode :=
  ⟨"y", all_anyChar "y", by decide⟩

/-- Two blank nodes that nothing tells apart. -/
def twins : List Triple :=
  [⟨.bnode nodeX, uriRef ['p'], .subject (.uri (uriRef ['o']))⟩,
   ⟨.bnode nodeY, uriRef ['p'], .subject (.uri (uriRef ['o']))⟩]

theorem deSkolemize_skolemize_twins :
    (Isomorphic twins (deSkolemize lettered ['h'] { stable := true }
        (skolemize zeros ['h'] { stable := true } twins)) ∧
      Set.InjOn (mint (skolemBase ['h'] ".well-known/genid/".toList)
        (skolemIDs zeros { stable := true } twins)) (graphNodes twins)) ↔
      ∀ t ∈ twins, innerNodes t = [] :=
  deSkolemize_skolemize_iff zeros lettered ['h'] { stable := true } twins
    (skolemize zeros ['h'] { stable := true } twins) (by decide +kernel) (.refl _)

/-- A triple about a triple with a blank node. -/
def quoted : List Triple :=
  [⟨.uri (uriRef ['s']), uriRef ['p'],
    .subject (.triple (.bnode nodeX) (uriRef ['p']) (.subject (.uri (uriRef ['o']))))⟩]

/-- On the way back the triple term keeps the IRI. -/
theorem deSkolemize_skolemize_quoted :
    deSkolemize lettered ['h'] {} (skolemize zeros ['h'] {} quoted) =
      [⟨.uri (uriRef ['s']), uriRef ['p'],
        .subject (.triple (.uri (uriRef "h/.well-known/genid/x".toList)) (uriRef ['p'])
          (.subject (.uri (uriRef ['o']))))⟩] ∧
    ¬ Isomorphic quoted (deSkolemize lettered ['h'] {} (skolemize zeros ['h'] {} quoted)) := by
  refine (fun hresult => ⟨hresult, ?_⟩) (by decide +kernel)
  rintro ⟨f, -, hiso⟩
  rw [hresult] at hiso
  rcases (hiso _).mp (mem_singleton_self _) with ⟨u, hu, heq⟩
  rw [quoted, mem_singleton] at hu
  subst hu
  simp [TripleOf.rename, TripleOf.bind, TermOf.bind, SubjectOf.bind] at heq

end Skolem

end GoRdf
