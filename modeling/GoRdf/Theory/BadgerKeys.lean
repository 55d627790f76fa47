import GoRdf.Core.Badger
import GoRdf.Theory.Dataset
import GoRdf.Theory.Decode
import GoRdf.Theory.TermKey

/-!
# The Keys and Values of the Badger Store

A composite key is read back part by part, since a NUL ends a term key in every
position: names have none, and a literal, which may have any character, is
delimited by its quotes. So a key identifies its graph and triple in each index,
and a scan's prefix is met by the keys of exactly those triples that have the
pattern's terms where the prefix has them.

The values are framed by lengths. A triple is read back from them if its terms
are read back from their keys and the keys are shorter than a `uint32` can say.

## Main definitions

* `nameKey`: The key of a graph.
* `fields`, `indexKey`: A triple as an index orders and files it.
* `scanFamily`, `covered`: The index a pattern scans, and the part it scans by.
* `TripleOf.Framed`, `TripleOf.wellNested`: What makes a triple's value readable.

## Theorems

* `indexKey_inj`: A key identifies its graph and triple.
* `scanPrefix_isPrefix_iff`: What a scan's prefix meets.
* `decodeTriple_of_wellNested`, `decodeTriple_of_not_wellNested`: Which triples are read
  back.
-/

namespace GoRdf

open Lib List TermOf

section

variable {ok : Char → Bool}

/-! ## Graphs -/

/-- The key of a graph: empty for the default graph. -/
def nameKey (name : Option (TermOf ok)) : Key :=
  (name.map TermOf.termKey).getD []

theorem graphKey_eq (graph : Option (TermOf ok)) : graphKey graph = nameKey (graphName graph) := by
  rw [graphKey, graphName]
  split <;> rfl

/-- A key never starts with the separator, so an empty field is told from it. -/
theorem TermOf.termKey_head (t : TermOf ok) : ∃ c r, t.termKey = c :: r ∧ c ≠ '\x00' := by
  cases t with
  | subject s =>
    obtain ⟨c, r, hkey, hc⟩ := s.termKey_head
    refine ⟨c, r, hkey, ?_⟩
    rintro rfl
    exact nomatch hc
  | literal l =>
    rw [TermOf.termKey, LiteralOf.literalKey]
    split
    · exact ⟨'L', _, rfl, by decide⟩
    · exact ⟨'L', _, rfl, by decide⟩

/-! ## Joined keys -/

/-- The keys of a list of terms, with NULs between them. -/
def joinKeys : List (TermOf ok) → Key
  | [] => []
  | [t] => t.termKey
  | t :: ts => t.termKey ++ '\x00' :: joinKeys ts

theorem joinKeys_cons (t : TermOf ok) {ts : List (TermOf ok)} (h : ts ≠ []) :
    joinKeys (t :: ts) = t.termKey ++ '\x00' :: joinKeys ts := by
  cases ts with
  | nil => exact absurd rfl h
  | cons u us => rfl

section

variable (hnul : ok '\x00' = false)

include hnul

/-- What is closed by a NUL is read back off the front. -/
theorem termKey_nul_inj {t u : TermOf ok} {r r' : List Char}
    (h : t.termKey ++ '\x00' :: r = u.termKey ++ '\x00' :: r') : t = u ∧ r = r' := by
  have hstop := Stops.cons (isStop_nul hnul)
  rcases termKey_append_inj hnul t u (hstop r) (hstop r') h with ⟨htu, hr⟩
  exact ⟨htu, (List.cons.inj hr).2⟩

/-- A graph key is read back off the front. -/
theorem nameKey_append_inj {n n' : Option (TermOf ok)} {r r' : List Char}
    (h : nameKey n ++ '\x00' :: r = nameKey n' ++ '\x00' :: r') : n = n' ∧ r = r' := by
  -- The key of the default graph is empty, and no other one starts with a NUL.
  have hdefault : ∀ (t : TermOf ok) (r r' : List Char), '\x00' :: r ≠ t.termKey ++ r' := by
    intro t r r' h
    obtain ⟨c, ds, hkey, hc⟩ := t.termKey_head
    rw [hkey, cons_append, List.cons.injEq] at h
    exact hc h.1.symm
  cases n with
  | none =>
    cases n' with
    | none => exact ⟨rfl, (List.cons.inj h).2⟩
    | some t => exact absurd h (hdefault t r _)
  | some t =>
    cases n' with
    | none => exact absurd h.symm (hdefault t r' _)
    | some t' =>
      rcases termKey_nul_inj hnul h with ⟨ht, hr⟩
      exact ⟨by rw [ht], hr⟩

/-- Joined keys identify the terms, if there are equally many. -/
theorem joinKeys_inj {ts us : List (TermOf ok)} (hlen : ts.length = us.length)
    (h : joinKeys ts = joinKeys us) : ts = us := by
  induction ts generalizing us with
  | nil => exact (length_eq_zero_iff.mp hlen.symm).symm
  | cons t ts ih =>
    cases us with
    | nil => exact absurd hlen (Nat.succ_ne_zero _)
    | cons u us =>
      rw [length_cons, length_cons, Nat.add_right_cancel_iff] at hlen
      by_cases hts : ts = []
      · have hus : us = [] := by
          rw [← length_eq_zero_iff, ← hlen, hts]
          rfl
        rw [hts, hus] at h ⊢
        rw [termKey_injective hnul h]
      · have hus : us ≠ [] := by
          rintro rfl
          exact hts (length_eq_zero_iff.mp hlen)
        rw [joinKeys_cons t hts, joinKeys_cons u hus] at h
        rcases termKey_nul_inj hnul h with ⟨htu, hrest⟩
        rw [htu, ih hlen hrest]

/-- Keys that are each closed by a NUL start a longer list of joined keys exactly when
    the terms start the list. -/
theorem closedKeys_isPrefix_iff {ps ts : List (TermOf ok)} (hlen : ps.length < ts.length) :
    (ps.flatMap fun p => p.termKey ++ ['\x00']) <+: joinKeys ts ↔ ps <+: ts := by
  induction ps generalizing ts with
  | nil => exact iff_of_true nil_prefix nil_prefix
  | cons p ps ih =>
    cases ts with
    | nil => cases hlen
    | cons t ts =>
      rw [length_cons, length_cons, Nat.add_lt_add_iff_right] at hlen
      have hts : ts ≠ [] := by
        rintro rfl
        exact Nat.not_lt_zero _ hlen
      rw [joinKeys_cons t hts, cons_prefix_cons, ← ih hlen, flatMap_cons]
      constructor
      · rintro ⟨r, h⟩
        rw [append_assoc, append_assoc] at h
        rcases termKey_nul_inj hnul h with ⟨hpt, hrest⟩
        exact ⟨hpt, r, hrest⟩
      · rintro ⟨rfl, r, h⟩
        exact ⟨r, by rw [append_assoc, append_assoc, h]; rfl⟩

end

/-! ## Index keys -/

/-- The terms of a triple in the order of an index. -/
def fields : Family → TripleOf ok → List (TermOf ok)
  | .spo, t => [.subject t.subject, t.predicate.toTerm, t.object]
  | .pos, t => [t.predicate.toTerm, t.object, .subject t.subject]
  | .osp, t => [t.object, .subject t.subject, t.predicate.toTerm]
  | .ctx, _ => []

/-- The key of a triple of a graph in an index. -/
def indexKey (fam : Family) (gk : Key) (t : TripleOf ok) : Key :=
  fam.letter :: '\x00' :: gk ++ '\x00' :: joinKeys (fields fam t)

theorem spoKey_eq (gk : Key) (t : TripleOf ok) :
    spoKey gk t.subject.termKey t.predicate.termKey t.object.termKey = indexKey .spo gk t := by
  simp [spoKey, makeKey, indexKey, fields, joinKeys, TermOf.termKey, URIRefOf.toTerm,
    SubjectOf.termKey]

theorem posKey_eq (gk : Key) (t : TripleOf ok) :
    posKey gk t.predicate.termKey t.object.termKey t.subject.termKey = indexKey .pos gk t := by
  simp [posKey, makeKey, indexKey, fields, joinKeys, TermOf.termKey, URIRefOf.toTerm,
    SubjectOf.termKey]

theorem ospKey_eq (gk : Key) (t : TripleOf ok) :
    ospKey gk t.object.termKey t.subject.termKey t.predicate.termKey = indexKey .osp gk t := by
  simp [ospKey, makeKey, indexKey, fields, joinKeys, TermOf.termKey, URIRefOf.toTerm,
    SubjectOf.termKey]

theorem Family.letter_injective {fam fam' : Family} (h : fam.letter = fam'.letter) :
    fam = fam' := by
  revert h
  cases fam <;> cases fam' <;> decide

/-- The families that index triples. -/
def indexes : List Family := [.spo, .pos, .osp]

/-- Each order of the fields has all three of them. -/
theorem fields_injective {fam : Family} (hfam : fam ∈ indexes) {t u : TripleOf ok}
    (h : fields fam t = fields fam u) : t = u := by
  cases t
  simp only [indexes, mem_cons, not_mem_nil, or_false] at hfam
  rcases hfam with rfl | rfl | rfl <;> simp_all [fields, URIRefOf.toTerm]

theorem length_fields {fam : Family} (hfam : fam ∈ indexes) (t : TripleOf ok) :
    (fields fam t).length = 3 := by
  simp only [indexes, mem_cons, not_mem_nil, or_false] at hfam
  rcases hfam with rfl | rfl | rfl <;> rfl

/-- A key identifies its family, graph and triple. -/
theorem indexKey_inj (hnul : ok '\x00' = false) {fam fam' : Family} (hfam : fam ∈ indexes)
    (hfam' : fam' ∈ indexes) {n n' : Option (TermOf ok)} {t t' : TripleOf ok}
    (h : indexKey fam (nameKey n) t = indexKey fam' (nameKey n') t') :
    fam = fam' ∧ n = n' ∧ t = t' := by
  simp only [indexKey, cons_append, List.cons.injEq, true_and] at h
  obtain rfl : fam = fam' := Family.letter_injective h.1
  rcases nameKey_append_inj hnul h.2 with ⟨hn, hjoin⟩
  have hfields := joinKeys_inj hnul ((length_fields hfam t).trans (length_fields hfam t').symm)
    hjoin
  exact ⟨rfl, hn, fields_injective hfam hfields⟩

/-! ## Scans -/

/-- The index that a pattern scans. -/
def scanFamily : TriplePatternOf ok → Family
  | ⟨some _, some _, _⟩ => .spo
  | ⟨some _, none, some _⟩ => .osp
  | ⟨some _, none, none⟩ => .spo
  | ⟨none, some _, _⟩ => .pos
  | ⟨none, none, some _⟩ => .osp
  | ⟨none, none, none⟩ => .spo

/-- The part of a pattern that its prefix has: all of it, unless every position is
    bound. -/
def covered : TriplePatternOf ok → TriplePatternOf ok
  | ⟨some s, some p, _⟩ => ⟨some s, some p, none⟩
  | pat => pat

/-- The terms of the prefix. -/
def scanFields : TriplePatternOf ok → List (TermOf ok)
  | ⟨some s, some p, _⟩ => [.subject s, p.toTerm]
  | ⟨some s, none, some o⟩ => [o, .subject s]
  | ⟨some s, none, none⟩ => [.subject s]
  | ⟨none, some p, some o⟩ => [p.toTerm, o]
  | ⟨none, some p, none⟩ => [p.toTerm]
  | ⟨none, none, some o⟩ => [o]
  | ⟨none, none, none⟩ => []

theorem scanFamily_mem (pat : TriplePatternOf ok) : scanFamily pat ∈ indexes := by
  unfold scanFamily
  split <;> decide

theorem length_scanFields_lt (pat : TriplePatternOf ok) (t : TripleOf ok) :
    (scanFields pat).length < (fields (scanFamily pat) t).length := by
  rw [length_fields (scanFamily_mem pat)]
  unfold scanFields
  split <;> simp

theorem subjectKey_ne_nil (s : SubjectOf ok) : s.termKey ≠ [] := by
  obtain ⟨c, r, hkey, -⟩ := s.termKey_head
  rw [hkey]
  exact cons_ne_nil c r

theorem objectKey_ne_nil (t : TermOf ok) : t.termKey ≠ [] := by
  obtain ⟨c, r, hkey, -⟩ := t.termKey_head
  rw [hkey]
  exact cons_ne_nil c r

theorem scanPrefix_eq (pat : TriplePatternOf ok) (gk : Key) :
    scanPrefix pat gk = (scanFamily pat).letter :: '\x00' :: gk ++ '\x00' ::
      (scanFields pat).flatMap fun p => p.termKey ++ ['\x00'] := by
  have hpred : ∀ p : URIRefOf ok, p.termKey ≠ [] := fun p => cons_ne_nil _ _
  obtain ⟨s, p, o⟩ := pat
  cases s <;> cases p <;> cases o <;>
    simp [scanPrefix, scanFamily, scanFields, makePrefixKey, subjectKey_ne_nil, objectKey_ne_nil,
      hpred, TermOf.termKey, URIRefOf.toTerm, SubjectOf.termKey]

/-- The prefix of a scan checks the fields it covers; the rest of the pattern is checked later. -/
theorem scanFields_isPrefix_iff (pat : TriplePatternOf ok) (t : TripleOf ok) :
    scanFields pat <+: fields (scanFamily pat) t ↔ (covered pat).matches t = true := by
  obtain ⟨s, p, o⟩ := pat
  cases s <;> cases p <;> cases o <;>
    simp [scanFields, scanFamily, fields, covered, TriplePatternOf.matches, URIRefOf.toTerm,
      and_comm]

/-- A scan's prefix is met, in the index it is for, by the keys of exactly those triples
    of the graph that have the pattern's terms where the prefix has them. -/
theorem scanPrefix_isPrefix_iff (hnul : ok '\x00' = false) (pat : TriplePatternOf ok)
    (n n' : Option (TermOf ok)) (t : TripleOf ok) :
    scanPrefix pat (nameKey n) <+: indexKey (scanFamily pat) (nameKey n') t ↔
      n' = n ∧ (covered pat).matches t = true := by
  rw [scanPrefix_eq, indexKey, ← scanFields_isPrefix_iff,
    ← closedKeys_isPrefix_iff hnul (length_scanFields_lt pat t)]
  simp only [cons_append, cons_prefix_cons, true_and]
  constructor
  · rintro ⟨r, h⟩
    rw [append_assoc] at h
    rcases nameKey_append_inj hnul h with ⟨hn, hrest⟩
    exact ⟨hn.symm, r, hrest⟩
  · rintro ⟨rfl, r, h⟩
    exact ⟨r, by rw [append_assoc, cons_append, h]⟩

/-! ## Values -/

theorem toNat_byte (b : Nat) : (Char.ofNat (b % 256)).toNat = b % 256 := by
  have hvalid : (b % 256).isValidChar := .inl (by omega)
  rw [Char.ofNat, dif_pos hvalid]
  rfl

theorem length_putUint32 (n : Nat) : (putUint32 n).length = 4 :=
  rfl

/-- A length below `2 ^ 32` is read back. -/
theorem getUint32_putUint32 {n : Nat} (hn : n < 2 ^ 32) (r : List Char) :
    getUint32 (putUint32 n ++ r) = n := by
  have htake : (putUint32 n ++ r).take 4 = putUint32 n := by
    rw [take_append_of_le_length (by rw [length_putUint32]), take_of_length_le]
    rw [length_putUint32]
  rw [getUint32, htake, putUint32]
  simp only [map_cons, map_nil, foldr_cons, foldr_nil, toNat_byte]
  omega

/-- A text behind its length is read back. -/
theorem readField_append (part : Part) {key : Key} (hkey : key.length < 2 ^ 32) (r : List Char) :
    readField part (putUint32 key.length ++ key ++ r) = .ok (key, r) := by
  have hlen : ¬ (putUint32 key.length ++ key ++ r).length < 4 := by
    rw [length_append, length_append, length_putUint32]
    omega
  have hdrop : (putUint32 key.length ++ key ++ r).drop 4 = key ++ r := by
    rw [append_assoc, drop_left' (length_putUint32 _)]
  rw [readField, if_neg hlen]
  rw [hdrop, append_assoc, getUint32_putUint32 hkey, if_neg (by simp), take_left,
    drop_left]

/-- The keys are shorter than the frame can say. A database that refuses long keys, as
    Badger does from 65001 bytes on, holds no others. -/
structure TripleOf.Framed (t : TripleOf ok) : Prop where
  subject : t.subject.termKey.length < 2 ^ 32
  predicate : t.predicate.termKey.length < 2 ^ 32
  object : t.object.termKey.length < 2 ^ 32

/-- No triple term in the triple has a triple term for its subject. -/
def TripleOf.wellNested (t : TripleOf ok) : Bool :=
  t.subject.wellNested && t.object.wellNested

/-- Behind the frame are the keys of the triple. -/
theorem decodeTriple_encodeTriple {t : TripleOf ok} (h : t.Framed) :
    (decodeTriple (encodeTriple t) : Except BadgerError (TripleOf ok)) = do
      let s ← decodePart .subject t.subject.termKey
      let p ← decodePart .predicate t.predicate.termKey
      let o ← decodePart .object t.object.termKey
      let s ← s.asSubject.elim (.error .subjectKind) .ok
      let p ← p.asURIRef.elim (.error .predicateKind) .ok
      return ⟨s, p, o⟩ := by
  have hlen : ¬ (encodeTriple t).length < 12 := by
    simp only [encodeTriple, length_append, length_putUint32]
    omega
  have hfirst := readField_append .subject h.subject
    (putUint32 t.predicate.termKey.length ++ t.predicate.termKey ++
      (putUint32 t.object.termKey.length ++ t.object.termKey ++ []))
  have hsecond := readField_append .predicate h.predicate
    (putUint32 t.object.termKey.length ++ t.object.termKey ++ [])
  have hthird := readField_append .object h.object []
  rw [decodeTriple, if_neg hlen, encodeTriple]
  simp only [append_nil, append_assoc] at hfirst hsecond hthird ⊢
  simp only [hfirst, hsecond, hthird, Bind.bind, Except.bind]

/-- A class of characters without NUL makes every term safe to join with it. -/
theorem noNul_of_class (hnul : ok '\x00' = false) {value : String}
    (h : value.toList.all ok = true) : noNul value = true := by
  rw [noNul, Bool.not_eq_true', ← Bool.not_eq_true, contains_iff_mem]
  intro hmem
  exact absurd (all_eq_true.mp h _ hmem) (by rw [hnul]; exact Bool.false_ne_true)

mutual

theorem SubjectOf.nulFree_of_class (hnul : ok '\x00' = false) :
    ∀ s : SubjectOf ok, s.nulFree = true
  | .uri u => noNul_of_class hnul u.valid
  | .bnode b => noNul_of_class hnul b.valid
  | .triple s p o => by
    rw [SubjectOf.nulFree, SubjectOf.nulFree_of_class hnul s, noNul_of_class hnul p.valid,
      TermOf.nulFree_of_class hnul o]
    rfl

theorem TermOf.nulFree_of_class (hnul : ok '\x00' = false) : ∀ t : TermOf ok, t.nulFree = true
  | .subject s => SubjectOf.nulFree_of_class hnul s
  | .literal _ => rfl

end

mutual

theorem SubjectOf.named_of_class (hnul : ok '\x00' = false) : ∀ s : SubjectOf ok, s.named = true
  | .uri _ | .bnode _ => rfl
  | .triple s p o => by
    rw [SubjectOf.named, SubjectOf.named_of_class hnul s, TermOf.named_of_class hnul o]
    rfl

theorem TermOf.named_of_class (hnul : ok '\x00' = false) : ∀ t : TermOf ok, t.named = true
  | .subject s => SubjectOf.named_of_class hnul s
  | .literal l => by
    rw [TermOf.named, LiteralOf.named]
    split
    · rename_i dt hdt _
      exact bne_iff_ne.mpr (hdt hnul)
    · rfl

end

section

variable (hnul : ok '\x00' = false)

include hnul

/-- Over a class without NUL, only the nesting of triple terms decides whether a term is
    read back. -/
theorem termFromKey_of_wellNested {t : TermOf ok} (h : t.wellNested = true) :
    termFromKey t.termKey = .ok t :=
  termFromKey_of_readable t ⟨nulFree_of_class hnul t, h, named_of_class hnul t⟩

theorem decodePart_ok (part : Part) {t : TermOf ok} (h : t.wellNested = true) :
    decodePart part t.termKey = .ok t := by
  rw [decodePart, termFromKey_of_wellNested hnul h]
  rfl

/-- A triple term whose subject is a triple term is written, but cannot be read back. -/
theorem decodePart_error (part : Part) {t : TermOf ok} (h : t.wellNested = false) :
    ∃ e, (decodePart part t.termKey : Except BadgerError (TermOf ok)) = .error e := by
  obtain ⟨e, he⟩ := termFromKey_error_of_not_wellNested t (nulFree_of_class hnul t) h
  exact ⟨_, by rw [decodePart, he]; rfl⟩

/-- A triple is read back if its triple terms are nested as they should be. -/
theorem decodeTriple_of_wellNested {t : TripleOf ok} (h : t.Framed) (hnest : t.wellNested = true) :
    decodeTriple (encodeTriple t) = .ok t := by
  rw [TripleOf.wellNested, Bool.and_eq_true] at hnest
  have hs : decodePart .subject t.subject.termKey = .ok (TermOf.subject t.subject) :=
    decodePart_ok hnul .subject (t := .subject t.subject) hnest.1
  have hp : decodePart .predicate t.predicate.termKey = .ok t.predicate.toTerm :=
    decodePart_ok hnul .predicate (t := t.predicate.toTerm) rfl
  rw [decodeTriple_encodeTriple h, hs, hp, decodePart_ok hnul .object hnest.2]
  rfl

/-- Otherwise it cannot be read. -/
theorem decodeTriple_of_not_wellNested {t : TripleOf ok} (h : t.Framed)
    (hnest : t.wellNested = false) :
    ∃ e, (decodeTriple (encodeTriple t) : Except BadgerError (TripleOf ok)) = .error e := by
  rw [decodeTriple_encodeTriple h]
  have hp : decodePart .predicate t.predicate.termKey = .ok t.predicate.toTerm :=
    decodePart_ok hnul .predicate (t := t.predicate.toTerm) rfl
  cases hs : t.subject.wellNested with
  | false =>
    obtain ⟨e, he⟩ := decodePart_error hnul .subject (t := .subject t.subject) hs
    have he' : decodePart .subject t.subject.termKey = .error e := he
    exact ⟨e, by rw [he']; rfl⟩
  | true =>
    have hs' : decodePart .subject t.subject.termKey = .ok (TermOf.subject t.subject) :=
      decodePart_ok hnul .subject (t := .subject t.subject) hs
    rw [TripleOf.wellNested, hs] at hnest
    obtain ⟨e, he⟩ := decodePart_error hnul .object hnest
    exact ⟨e, by rw [hs', hp, he]; rfl⟩

end

end

end GoRdf
