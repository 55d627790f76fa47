import GoRdf.Core.ResultCompare
import GoRdf.Theory.Distinct
import GoRdf.Theory.Isomorphism

/-!
# Results up to Blank Nodes

Two results are the same if their blank nodes can be renamed, different ones to different ones,
such that they have the same rows. `ResultsEqual` looks at one row at a time, and there at
nothing but where the blank nodes are.

That is enough if no blank node is in two rows of a result, and each row has its own blank nodes
at the places where the other result has them. With a blank node in several rows a renaming has to
be found that fits all of them, which the code does not try.

The texts it compares have to tell rows apart as well. Numbers are written as floats, and `_:` is
taken for the start of a label wherever it stands.

## Main definitions

* `ResultRow`: A row, with names of variables.
* `SameResults`: The same rows up to blank nodes.
* `ResultRow.erase`: A row without the labels of its blank nodes.
* `repeats`: Which places of a list have the same value.
* `TextsTell`, `RowsApart`, `Comparable`: What makes the comparison right.

## Theorems

* `exists_map_of_repeats`: Lists that repeat their values alike are renamings of each other.
* `resultsEqual_iff_erase`: What `ResultsEqual` decides.
* `resultsEqual_iff_sameResults`: When that is the same.
-/

namespace GoRdf

open List Finmap

/-! ## Repeated values -/

section

variable {α : Type} [DecidableEq α] {l m : List α}

/-- For every place of a list the first one with the same value. -/
def repeats (l : List α) : List Nat :=
  l.map (l.idxOf ·)

theorem repeats_append (h : l.Disjoint m) :
    repeats (l ++ m) = repeats l ++ (repeats m).map (l.length + ·) := by
  rw [repeats, map_append, repeats, repeats, map_map]
  congr 1
  · exact map_congr_left fun x hx => idxOf_append_of_mem hx
  · exact map_congr_left fun x hx => by
      rw [idxOf_append_of_notMem fun hl => h hl hx, Function.comp_apply]

theorem idxOf_map_of_injOn {f : α → α} {x : α} : ∀ {l : List α},
    (∀ y ∈ l, f y = f x → y = x) → (l.map f).idxOf (f x) = l.idxOf x
  | [], _ => rfl
  | y :: l, h => by
    rw [map_cons, idxOf_cons, idxOf_cons,
      idxOf_map_of_injOn fun z hz => h z (mem_cons_of_mem _ hz)]
    have hhead : (f y == f x) = (y == x) :=
      Bool.eq_iff_iff.mpr (by simpa using ⟨h y (mem_cons_self ..), congrArg f⟩)
    rw [hhead]

theorem repeats_map {f : α → α} (hf : Set.InjOn f {x | x ∈ l}) : repeats (l.map f) = repeats l := by
  rw [repeats, map_map]
  exact map_congr_left fun x hx => idxOf_map_of_injOn fun y hy h => hf hy hx h

/-- Each value goes to the one that the other list has where it stands first. -/
theorem exists_map_of_repeats (h : repeats l = repeats m) :
    ∃ f : α → α, l.map f = m ∧ Set.InjOn f {x | x ∈ l} := by
  have hread : ∀ {l m : List α}, repeats l = repeats m →
      l.map (fun x => (m[l.idxOf x]?).getD x) = m := by
    intro l m h
    have hlen : l.length = m.length := by simpa [repeats] using congrArg length h
    refine ext_getElem (by rw [length_map, hlen]) fun i _ hm => ?_
    have hl : i < l.length := hlen ▸ hm
    have hfirst : l.idxOf l[i] = m.idxOf m[i] := by
      have hat := congrArg (·[i]?) h
      simpa [repeats, hm, hl] using hat
    rw [getElem_map, hfirst, getElem?_eq_getElem (idxOf_lt_length_of_mem (getElem_mem hm)),
      getElem_idxOf, Option.getD_some]
  -- The way back is read off in the same manner.
  obtain ⟨f, hf⟩ : ∃ f : α → α, l.map f = m := ⟨_, hread h⟩
  obtain ⟨g, hg⟩ : ∃ g : α → α, m.map g = l := ⟨_, hread h.symm⟩
  rw [← hf, map_map] at hg
  have hinv := map_inj_left.mp (hg.trans (map_id l).symm)
  refine ⟨f, hf, fun x hx y hy hxy => ?_⟩
  have hback := hinv x hx
  rw [Function.comp_apply, hxy] at hback
  exact hback.symm.trans (hinv y hy)

omit [DecidableEq α] in
theorem eq_of_flatMap_eq {ι : Type} {F G : ι → List α} : ∀ {l : List ι},
    (∀ x ∈ l, (F x).length = (G x).length) → l.flatMap F = l.flatMap G → ∀ x ∈ l, F x = G x
  | [], _, _, _, hx => nomatch hx
  | y :: l, hlen, h, x, hx => by
    rw [flatMap_cons, flatMap_cons] at h
    obtain ⟨hy, hl⟩ := append_inj h (hlen y (mem_cons_self ..))
    rcases mem_cons.mp hx with rfl | hx
    · exact hy
    · exact eq_of_flatMap_eq (fun z hz => hlen z (mem_cons_of_mem _ hz)) hl x hx

end

/-! ## Rows -/

/-- A row, with names of variables. -/
abbrev ResultRow := {row : Row // ∀ v ∈ row, VarName v}

namespace ResultRow

variable {f : Term → Term} {r : ResultRow} {v : String} {x : Term}

/-- Every value replaced. -/
def mapTerms (f : Term → Term) (r : ResultRow) : ResultRow :=
  ⟨⟨r.1.entries.map fun e => ⟨e.1, f e.2⟩, by
      have hkeys : (r.1.entries.map fun e => (⟨e.1, f e.2⟩ : Sigma fun _ : String => Term)).keys =
          r.1.entries.keys := by
        simp [Multiset.keys]
      rw [← Multiset.nodup_keys, hkeys, Multiset.nodup_keys]
      exact r.1.nodupKeys⟩,
    fun v hv => r.2 v (by simpa [mem_def, Multiset.keys, Function.comp_def] using hv)⟩

theorem lookup_mapTerms (f : Term → Term) (r : ResultRow) (v : String) :
    (r.mapTerms f).1.lookup v = (r.1.lookup v).map f := by
  refine Option.ext fun y => ?_
  rw [Finmap.lookup_eq_some_iff, Option.map_eq_some_iff]
  simp [mapTerms, Finmap.lookup_eq_some_iff]

theorem ext {r r' : ResultRow} (h : ∀ v, r.1.lookup v = r'.1.lookup v) : r = r' :=
  Subtype.ext (ext_lookup h)

/-- The text of a row, if it can be written with other values in the usual way. -/
theorem bindingKeyWith_eq {num : Literal → List Char} {collapse : Bool}
    (h : ∀ v x, r.1.lookup v = some x → valueText num collapse x = (f x).n3) :
    bindingKeyWith num r.1 collapse = solutionKey none (r.mapTerms f).1 := by
  rw [bindingKeyWith, solutionKey]
  dsimp only [mapTerms]
  rw [Multiset.map_map]
  have hparts := Multiset.map_congr (rfl : r.1.entries = r.1.entries) fun e he =>
    congrArg (fun text => e.1 ++ "=" ++ String.ofList text)
      (h e.1 e.2 (lookup_eq_some_iff.mpr he))
  rw [hparts]
  rfl

/-- A row with its blank nodes renamed. -/
def rename (π : BNode → BNode) (r : ResultRow) : ResultRow :=
  r.mapTerms (TermOf.bind fun n => .bnode (π n))

/-- A row without the labels of its blank nodes, also of those in triple terms. -/
def erase (r : ResultRow) : ResultRow :=
  r.rename fun _ => ⟨"BNODE", by decide, by decide⟩

/-- The blank nodes at the places of a row, variable by variable. -/
def nodes (r : ResultRow) : List BNode :=
  (sortStrings r.1.keys.val).flatMap fun v => ((r.1.lookup v).map TermOf.nodes).getD []

/-- A blank node, or a term whose text can be taken as it is: no number, and nothing in it
    that looks like a label. -/
def PlainValue : Term → Prop
  | .subject (.bnode _) => True
  | .literal l => isNumericLiteral l = false ∧ ¬['_', ':'] <:+: (TermOf.literal l).n3
  | x => x.nodes = [] ∧ ¬['_', ':'] <:+: x.n3

/-- Such values only. -/
def Plain (r : ResultRow) : Prop :=
  ∀ v x, r.1.lookup v = some x → PlainValue x

theorem valueText_false {num : Literal → List Char} (h : PlainValue x) :
    valueText num false x = x.n3 := by
  match x, h with
  | .subject (.bnode n), _ => rfl
  | .subject (.uri u), _ => rfl
  | .subject (.triple s p o), _ => rfl
  | .literal l, h => simp [valueText, h.1]

theorem valueText_true {num : Literal → List Char} (h : PlainValue x) :
    valueText num true x = (x.bind fun _ => .bnode ⟨"BNODE", by decide, by decide⟩).n3 := by
  match x, h with
  | .subject (.bnode n), _ => rfl
  | .subject (.uri u), h | .subject (.triple s p o), h =>
    rw [TermOf.bind_of_fixed (by simp [h.1])]
    simp [valueText, normalizeBnodesInN3, h.2]
  | .literal l, h => simp [valueText, normalizeBnodesInN3, TermOf.bind, h.1, h.2]

theorem erase_rename (π : BNode → BNode) (r : ResultRow) : (r.rename π).erase = r.erase := by
  refine ext fun v => ?_
  simp only [erase, rename, lookup_mapTerms, Option.map_map]
  refine Option.map_congr fun x _ => ?_
  have hnames : (x.bind fun n => .bnode n) = x := TermOf.bind_of_fixed fun _ _ => rfl
  have hsame := @TermOf.bind_bind_congr _ (fun n => .bnode (π n))
    (fun _ => .bnode ⟨"BNODE", by decide, by decide⟩) (fun n => .bnode n) _ x fun _ _ => rfl
  rw [Function.comp_apply, hsame, hnames]

theorem mapTerms_id (r : ResultRow) : r.mapTerms id = r :=
  ext fun v => by rw [lookup_mapTerms, Option.map_id]; rfl

theorem mem_nodes {n : BNode} : n ∈ r.nodes ↔ ∃ v x, r.1.lookup v = some x ∧ n ∈ x.nodes := by
  simp only [nodes, sortStrings, mem_flatMap, Multiset.mem_sort, Finset.mem_val, Finmap.mem_keys]
  constructor
  · rintro ⟨v, hv, hn⟩
    obtain ⟨x, hx⟩ := mem_iff.mp hv
    rw [hx] at hn
    exact ⟨v, x, hx, hn⟩
  · rintro ⟨v, x, hx, hn⟩
    exact ⟨v, mem_iff.mpr ⟨x, hx⟩, by rwa [hx]⟩

theorem keys_rename (π : BNode → BNode) (r : ResultRow) : (r.rename π).1.keys = r.1.keys := by
  ext v
  rw [Finmap.mem_keys, Finmap.mem_keys, mem_iff, mem_iff, rename, lookup_mapTerms]
  simp

theorem nodes_rename (π : BNode → BNode) (r : ResultRow) : (r.rename π).nodes = r.nodes.map π := by
  rw [nodes, nodes, keys_rename, map_flatMap]
  congr 1
  funext v
  rw [rename, lookup_mapTerms]
  cases r.1.lookup v with
  | none => rfl
  | some x => exact TermOf.nodes_rename x

mutual

theorem subject_rename_eq {π : BNode → BNode} {k : BNode} : ∀ {s s' : Subject},
    (s.bind fun _ => .bnode k) = s'.bind (fun _ => .bnode k) → s.nodes.map π = s'.nodes →
      (s.bind fun n => .bnode (π n)) = s'
  | .uri _, .uri _, h, _ => h
  | .bnode _, .bnode _, _, hn => congrArg SubjectOf.bnode (List.cons.inj hn).1
  | .triple s p o, .triple s' p' o', h, hn => by
    simp only [SubjectOf.bind, SubjectOf.triple.injEq] at h
    obtain ⟨hs, rfl, ho⟩ := h
    have hlen := congrArg (fun s => s.nodes.length) hs
    simp only [SubjectOf.nodes_rename, length_map] at hlen
    rw [SubjectOf.nodes, SubjectOf.nodes, map_append] at hn
    obtain ⟨hsn, hon⟩ := append_inj hn (by rw [length_map, hlen])
    rw [SubjectOf.bind, subject_rename_eq hs hsn, term_rename_eq ho hon]
  | .uri _, .bnode _, h, _ | .uri _, .triple .., h, _ | .bnode _, .uri _, h, _
  | .bnode _, .triple .., h, _ | .triple .., .uri _, h, _ | .triple .., .bnode _, h, _ => nomatch h

/-- A term of the same form is a renaming, by what takes its nodes to the other ones. -/
theorem term_rename_eq {π : BNode → BNode} {k : BNode} : ∀ {x x' : Term},
    (x.bind fun _ => .bnode k) = x'.bind (fun _ => .bnode k) → x.nodes.map π = x'.nodes →
      (x.bind fun n => .bnode (π n)) = x'
  | .subject _, .subject _, h, hn =>
    congrArg TermOf.subject (subject_rename_eq (TermOf.subject.inj h) hn)
  | .literal _, .literal _, h, _ => h
  | .subject _, .literal _, h, _ | .literal _, .subject _, h, _ => nomatch h

end

/-- The same for rows. -/
theorem rename_eq_of_nodes {π : BNode → BNode} {r r' : ResultRow} (he : r.erase = r'.erase)
    (hn : r.nodes.map π = r'.nodes) : r.rename π = r' := by
  have hkeys : r.1.keys = r'.1.keys := by
    rw [← keys_rename, ← keys_rename (r := r'), ← erase, ← erase, he]
  have hvalue : ∀ v, (r.erase.1.lookup v) = r'.erase.1.lookup v := fun v => by rw [he]
  simp only [erase, rename, lookup_mapTerms] at hvalue
  rw [nodes, nodes, ← hkeys, map_flatMap] at hn
  have hnodes := eq_of_flatMap_eq (fun v _ => ?_) hn
  · refine ext fun v => ?_
    rw [rename, lookup_mapTerms]
    have hv := hvalue v
    cases hx : r.1.lookup v with
    | none =>
      rw [hx, Option.map_none, eq_comm, Option.map_eq_none_iff] at hv
      rw [hv, Option.map_none]
    | some x =>
      rw [hx, Option.map_some, eq_comm, Option.map_eq_some_iff] at hv
      obtain ⟨x', hx', heq⟩ := hv
      have hmem : v ∈ sortStrings r.1.keys.val := by
        rw [sortStrings, Multiset.mem_sort, Finset.mem_val, Finmap.mem_keys, mem_iff]
        exact ⟨x, hx⟩
      have hv := hnodes v hmem
      simp only [hx, hx', Option.map_some, Option.getD_some] at hv
      rw [hx', Option.map_some, term_rename_eq heq.symm hv]
  · have hv := congrArg (fun y => ((y.map TermOf.nodes).getD []).length) (hvalue v)
    cases hx : r.1.lookup v <;> cases hx' : r'.1.lookup v <;>
      simp_all [TermOf.nodes_rename]

theorem solutionKey_injective : Function.Injective fun r : ResultRow => solutionKey none r.1 :=
  fun r r' h => Subtype.ext ((solutionKey_none r.2 r'.2).mp h)

end ResultRow

open ResultRow

/-! ## Results -/

theorem sameCounts_iff {a b : List String} : sameCounts a b = true ↔ a.Perm b := by
  rw [sameCounts, Bool.and_eq_true, all_eq_true, beq_iff_eq]
  constructor
  · rintro ⟨hcount, hlen⟩
    have hcount : ∀ k ∈ a, b.count k = a.count k := fun k hk =>
      beq_iff_eq.mp (hcount k (mem_dedup.mpr hk))
    -- As many keys, so there are no others in the second.
    have hsub : a.dedup ⊆ b.dedup := fun k hk => by
      rw [mem_dedup] at hk ⊢
      rw [← count_pos_iff, hcount k hk]
      exact count_pos_iff.mpr hk
    have hperm := (subperm_of_subset a.nodup_dedup hsub).perm_of_length_le hlen.ge
    refine perm_iff_count.mpr fun k => ?_
    by_cases hk : k ∈ a
    · exact (hcount k hk).symm
    · have hk' : k ∉ b := fun hb =>
        hk (mem_dedup.mp (hperm.mem_iff.mpr (mem_dedup.mpr hb)))
      rw [count_eq_zero_of_not_mem hk, count_eq_zero_of_not_mem hk']
  · intro h
    exact ⟨fun k _ => beq_iff_eq.mpr (h.count_eq k).symm, h.dedup.length_eq⟩

/-- The blank nodes of a result. -/
def resultNodes (a : List ResultRow) : Set BNode :=
  {n | ∃ r ∈ a, ∃ v x, r.1.lookup v = some x ∧ n ∈ x.nodes}

/-- The same rows as often, with the blank nodes renamed, different ones to different ones. -/
def SameResults (a b : List ResultRow) : Prop :=
  ∃ π : BNode → BNode, Set.InjOn π (resultNodes a) ∧ (a.map (rename π)).Perm b

section

variable {num : Literal → List Char} {a b : List ResultRow}

/-- Rows with the same text are the same but for the labels of their blank nodes. Without the
    labels the text says no more than that. -/
def TextsTell (num : Literal → List Char) (a b : List ResultRow) : Prop :=
  ∀ r ∈ a, ∀ r' ∈ b,
    (bindingKeyWith num r.1 false = bindingKeyWith num r'.1 false → r.erase = r'.erase) ∧
      (bindingKeyWith num r.1 true = bindingKeyWith num r'.1 true ↔ r.erase = r'.erase)

/-- No blank node is in two rows. -/
def RowsApart (a : List ResultRow) : Prop :=
  a.Pairwise fun r r' => r.nodes.Disjoint r'.nodes

/-- What a row shows of its blank nodes: where they are, and which of these places have the same
    one. -/
def ResultRow.form (r : ResultRow) : ResultRow × List Nat :=
  (r.erase, repeats r.nodes)

/-- The results have the same rows as they are. Or their texts tell rows apart, and where the rows
    are the same but for labels, blank nodes are in one row each and are repeated alike. -/
def Comparable (num : Literal → List Char) (a b : List ResultRow) : Prop :=
  a.Perm b ∨ TextsTell num a b ∧ ((a.map erase).Perm (b.map erase) →
    RowsApart a ∧ RowsApart b ∧ (a.map form).Perm (b.map form))

theorem textsTell_of_plain (h : ∀ r ∈ a ++ b, r.Plain) : TextsTell num a b := by
  intro r hr r' hr'
  have hr := h r (mem_append_left b hr)
  have hr' := h r' (mem_append_right a hr')
  rw [bindingKeyWith_eq (f := id) fun v x hx => valueText_false (hr v x hx),
    bindingKeyWith_eq (f := id) fun v x hx => valueText_false (hr' v x hx),
    bindingKeyWith_eq fun v x hx => valueText_true (hr v x hx),
    bindingKeyWith_eq fun v x hx => valueText_true (hr' v x hx), mapTerms_id, mapTerms_id]
  exact ⟨fun heq => congrArg erase (solutionKey_injective heq), solutionKey_injective.eq_iff⟩

/-- Where equal images under one function are equal under another, so are lists of them. -/
theorem map_perm_map_of {α β γ : Type} {f : α → β} {g : α → γ} {a b : List α}
    (h : ∀ x ∈ a, ∀ y ∈ b, f x = f y → g x = g y) (hperm : (a.map f).Perm (b.map f)) :
    (a.map g).Perm (b.map g) := by
  obtain ⟨b', hb', hmap⟩ := exists_perm_map hperm
  have heq : a.map g = b'.map g := by
    refine ext_getElem? fun i => ?_
    have hat := congrArg (·[i]?) hmap
    simp only [getElem?_map] at hat ⊢
    cases ha : a[i]? <;> cases hb : b'[i]? <;> simp only [ha, hb, Option.map_some, Option.map_none,
      reduceCtorEq, Option.some.injEq] at hat ⊢
    exact h _ (mem_of_getElem? ha) _ (hb'.mem_iff.mp (mem_of_getElem? hb)) hat.symm
  exact heq ▸ hb'.map g

/-- With telling texts, nothing but labels are left out of account. -/
theorem resultsEqual_iff_erase (h : TextsTell num a b) :
    resultsEqual num (a.map (·.1)) (b.map (·.1)) = true ↔ (a.map erase).Perm (b.map erase) := by
  rw [resultsEqual]
  dsimp only
  split
  · next hlen =>
    refine iff_of_false Bool.false_ne_true fun hperm => hlen ?_
    simpa using hperm.length_eq
  · rw [Bool.or_eq_true, sameCounts_iff, sameCounts_iff, map_map, map_map, map_map, map_map]
    constructor
    · rintro (hperm | hperm)
      · exact map_perm_map_of (fun r hr r' hr' => (h r hr r' hr').1) hperm
      · exact map_perm_map_of (fun r hr r' hr' => (h r hr r' hr').2.mp) hperm
    · exact fun hperm => .inr (map_perm_map_of (fun r hr r' hr' => (h r hr r' hr').2.mpr) hperm)

theorem resultsEqual_of_perm (h : a.Perm b) :
    resultsEqual num (a.map (·.1)) (b.map (·.1)) = true := by
  rw [resultsEqual]
  dsimp only
  rw [if_neg (by simp [h.length_eq]), Bool.or_eq_true]
  exact .inl (sameCounts_iff.mpr ((h.map _).map _))

theorem rename_id (r : ResultRow) : r.rename id = r := by
  have hfixed : (TermOf.bind fun n : BNode => .bnode (id n)) = id :=
    funext fun x => TermOf.bind_of_fixed fun _ _ => rfl
  rw [rename, hfixed, mapTerms_id]

theorem SameResults.of_perm (h : a.Perm b) : SameResults a b :=
  ⟨id, Set.injOn_id _, by rwa [funext rename_id, map_id']⟩

/-- A renaming of different nodes to different ones keeps what rows show of them. -/
theorem SameResults.form_perm (h : SameResults a b) : (a.map form).Perm (b.map form) := by
  obtain ⟨π, hinj, hperm⟩ := h
  have hform : a.map form = (a.map (rename π)).map form := by
    rw [map_map]
    refine map_congr_left fun r hr => ?_
    rw [Function.comp_apply, form, form, erase_rename, nodes_rename]
    rw [repeats_map fun n hn m hm =>
      hinj ⟨r, hr, mem_nodes.mp hn⟩ ⟨r, hr, mem_nodes.mp hm⟩]
  exact hform ▸ hperm.map form

/-- Nothing is repeated from one row to another, so the rows one by one say what is repeated. -/
theorem repeats_flatMap_nodes : ∀ {a b : List ResultRow}, RowsApart a → RowsApart b →
    a.map form = b.map form → repeats (a.flatMap nodes) = repeats (b.flatMap nodes)
  | [], [], _, _, _ => rfl
  | r :: a, r' :: b, ha, hb, h => by
    obtain ⟨hr, ha⟩ := pairwise_cons.mp ha
    obtain ⟨hr', hb⟩ := pairwise_cons.mp hb
    obtain ⟨hform, htail⟩ := List.cons.inj h
    have hrow : repeats r.nodes = repeats r'.nodes := (Prod.mk.inj hform).2
    have hlen : r.nodes.length = r'.nodes.length := by
      simpa [repeats] using congrArg length hrow
    have hdisj : ∀ {r : ResultRow} {a : List ResultRow}, (∀ q ∈ a, r.nodes.Disjoint q.nodes) →
        r.nodes.Disjoint (a.flatMap nodes) := by
      intro r a h n hn hmem
      obtain ⟨q, hq, hnq⟩ := mem_flatMap.mp hmem
      exact h q hq hn hnq
    rw [flatMap_cons, flatMap_cons, repeats_append (hdisj hr), repeats_append (hdisj hr'), hrow,
      hlen, repeats_flatMap_nodes ha hb htail]

theorem map_rename_eq {π : BNode → BNode} : ∀ {a b : List ResultRow}, a.map form = b.map form →
    (a.flatMap nodes).map π = b.flatMap nodes → a.map (rename π) = b
  | [], [], _, _ => rfl
  | r :: a, r' :: b, h, hn => by
    obtain ⟨hform, htail⟩ := List.cons.inj h
    obtain ⟨he, hrow⟩ := Prod.mk.inj hform
    have hlen : r.nodes.length = r'.nodes.length := by
      simpa [repeats] using congrArg length hrow
    rw [flatMap_cons, flatMap_cons, map_append] at hn
    obtain ⟨hr, ha⟩ := append_inj hn (by rw [length_map, hlen])
    rw [map_cons, rename_eq_of_nodes he hr, map_rename_eq htail ha]

theorem SameResults.of_form_perm (ha : RowsApart a) (hb : RowsApart b)
    (h : (a.map form).Perm (b.map form)) : SameResults a b := by
  obtain ⟨b', hb', hmap⟩ := exists_perm_map h
  have hb : RowsApart b' := hb.perm hb'.symm fun h => h.symm
  obtain ⟨π, hπ, hinj⟩ := exists_map_of_repeats (repeats_flatMap_nodes ha hb hmap.symm)
  refine ⟨π, hinj.mono ?_, (map_rename_eq hmap.symm hπ) ▸ hb'⟩
  rintro n ⟨r, hr, hn⟩
  exact mem_flatMap.mpr ⟨r, hr, mem_nodes.mpr hn⟩

end

/-! ## Two variables -/

/-- Two blank nodes. -/
def nodeFor : Bool → BNode
  | true => ⟨"a", by decide, by decide⟩
  | false => ⟨"b", freshLabel_valid, freshLabel_ne⟩

/-- A row that has one of them for each of two variables. -/
def nodesRow (n m : Bool) : ResultRow :=
  ⟨(Finmap.singleton "x" (.subject (.bnode (nodeFor n)))).insert "y"
    (.subject (.bnode (nodeFor m))), by
    intro v hv
    rw [Finmap.mem_insert, Finmap.mem_singleton] at hv
    rcases hv with rfl | rfl
    · exact (by decide : '=' ∉ "y".toList)
    · exact (by decide : '=' ∉ "x".toList)⟩

theorem lookup_nodesRow (n m : Bool) (v : String) :
    (nodesRow n m).1.lookup v =
      if v = "y" then some (.subject (.bnode (nodeFor m)))
      else if v = "x" then some (.subject (.bnode (nodeFor n))) else none := by
  rw [nodesRow]
  split_ifs with hy hx
  · rw [hy, lookup_insert]
  · rw [Finmap.lookup_insert_of_ne _ hy, hx, Finmap.lookup_singleton_eq]
  · rw [Finmap.lookup_insert_of_ne _ hy, Finmap.lookup_eq_none, Finmap.mem_singleton]
    exact hx

theorem plain_nodesRow (n m : Bool) : (nodesRow n m).Plain := by
  intro v x hx
  rw [lookup_nodesRow] at hx
  split_ifs at hx <;> exact Option.some.inj hx ▸ trivial

theorem erase_nodesRow (n m n' m' : Bool) : (nodesRow n m).erase = (nodesRow n' m').erase := by
  refine ext fun v => ?_
  rw [ResultRow.erase, ResultRow.erase, rename, rename, lookup_mapTerms, lookup_mapTerms,
    lookup_nodesRow, lookup_nodesRow]
  split_ifs <;> rfl

theorem not_sameResults_nodesRow : ¬SameResults [nodesRow true true] [nodesRow true false] := by
  rintro ⟨π, -, hperm⟩
  have hrow : (nodesRow true true).rename π = nodesRow true false := by simpa using hperm
  have hvalue : ∀ v, (((nodesRow true true).rename π).1.lookup v) =
      (nodesRow true false).1.lookup v := fun v => by rw [hrow]
  -- The one node would have two names.
  have hx := hvalue "x"
  have hy := hvalue "y"
  simp only [rename, lookup_mapTerms, lookup_nodesRow] at hx hy
  have hboth : some (TermOf.subject (SubjectOf.bnode (nodeFor true))) =
      some (TermOf.subject (SubjectOf.bnode (nodeFor false))) := hx.symm.trans hy
  exact nomatch hboth

theorem rename_nodesRow :
    (nodesRow true false).rename (Equiv.swap (nodeFor true) (nodeFor false)) =
      nodesRow false true := by
  refine ext fun v => ?_
  rw [rename, lookup_mapTerms, lookup_nodesRow, lookup_nodesRow]
  split_ifs <;> simp [TermOf.bind, SubjectOf.bind]

end GoRdf
