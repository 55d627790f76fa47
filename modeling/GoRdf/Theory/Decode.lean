import GoRdf.Theory.LiteralText

/-!
# Keys Read Back

`TermFromKey` inverts `TermKey`. A triple term is split at the first two NULs,
which are its own as long as its subject has none.

Two kinds of terms that can be built do not come back. A triple term may have a
triple term for its subject, whose key has NULs of its own. A literal may have
the empty IRI for its datatype, which `literalKey` leaves out.

## Main definitions

* `TermOf.Readable`: What makes a term's key readable.

## Theorems

* `termFromKey_of_readable`: A readable term is read off its key.
* `termFromKey_termKey`: Reading inverts writing, and keys identify terms.
-/

namespace GoRdf

open Lib List Option SubjectOf LiteralOf URIRefOf

variable {a cs : List Char} {ok : Char → Bool}

/-! ## Readable terms -/

/-- The text has no NUL in it. -/
def noNul (value : String) : Bool :=
  !value.toList.contains '\x00'

/-- The datatype is not the empty IRI. -/
def LiteralOf.named (l : LiteralOf ok) : Bool :=
  match l.kind with
  | .typed dt _ => dt.value != ""
  | _ => true

mutual

/-- No IRI and no blank node label has a NUL in it. -/
def SubjectOf.nulFree : SubjectOf ok → Bool
  | .uri u => noNul u.value
  | .bnode b => noNul b.value
  | .triple s p o => s.nulFree && noNul p.value && o.nulFree

@[inherit_doc SubjectOf.nulFree]
def TermOf.nulFree : TermOf ok → Bool
  | .subject s => s.nulFree
  | .literal _ => true

end

mutual

/-- Triple terms are nested in object position only. -/
def SubjectOf.wellNested : SubjectOf ok → Bool
  | .triple s _ o => s.isName && o.wellNested
  | _ => true

@[inherit_doc SubjectOf.wellNested]
def TermOf.wellNested : TermOf ok → Bool
  | .subject s => s.wellNested
  | .literal _ => true

end

mutual

/-- No literal has the empty IRI for its datatype. -/
def SubjectOf.named : SubjectOf ok → Bool
  | .triple s _ o => s.named && o.named
  | _ => true

@[inherit_doc SubjectOf.named]
def TermOf.named : TermOf ok → Bool
  | .subject s => s.named
  | .literal l => l.named

end

/-- What makes the key of a term readable. -/
structure TermOf.Readable (t : TermOf ok) : Prop where
  nulFree : t.nulFree = true
  wellNested : t.wellNested = true
  named : t.named = true

theorem LiteralOf.literalKey_of_named {l : LiteralOf ok} (h : l.named = true) :
    l.literalKey = 'L' :: ':' :: l.n3 := by
  refine l.literalKey_eq_of_named fun dt hdt hkind => ?_
  rw [LiteralOf.named, hkind] at h
  simpa using h

theorem splitNul_append (ha : a.contains '\x00' = false) (b : List Char) :
    splitNul (a ++ '\x00' :: b) = some (a, b) := by
  have hall : ∀ c ∈ a, (c != '\x00') = true := by
    intro c hc
    rw [bne_iff_ne]
    rintro rfl
    rw [contains_iff_mem.mpr hc] at ha
    cases ha
  rw [splitNul, dropWhile_append_of_pos hall, takeWhile_append_of_pos hall]
  simp

theorem URIRefOf.ofChars_value (u : URIRefOf ok) : URIRefOf.ofChars u.value.toList = .ok u := by
  rw [URIRefOf.ofChars]
  simp only [String.ofList_toList]
  rw [dif_pos u.valid]

theorem BNodeOf.ofChars_value (b : BNodeOf ok) : BNodeOf.ofChars b.value.toList = .ok b := by
  rw [BNodeOf.ofChars]
  simp only [String.ofList_toList]
  rw [dif_pos b.labelled, dif_pos b.valid]

theorem termFromKey_uri (u : URIRefOf ok) : termFromKey u.termKey = .ok u.toTerm := by
  rw [URIRefOf.termKey, termFromKey, ofChars_value]
  rfl

theorem URIRefOf.termKey_noNul {u : URIRefOf ok} (h : noNul u.value = true) :
    u.termKey.contains '\x00' = false := by
  rw [noNul, Bool.not_eq_true'] at h
  simpa [URIRefOf.termKey] using h

/-- A name's key has no NUL, is none of a triple term in N3, and is read back. -/
theorem SubjectOf.termKey_name {s : SubjectOf ok} (hname : s.isName = true)
    (hnul : s.nulFree = true) :
    s.termKey.contains '\x00' = false ∧ (∀ r, ['<', '<', '('].isPrefixOf (s.termKey ++ r) = false) ∧
      termFromKey s.termKey = .ok (.subject s) := by
  cases s with
  | triple s p o => cases hname
  | uri u => exact ⟨termKey_noNul hnul, fun r => rfl, termFromKey_uri u⟩
  | bnode b =>
    refine ⟨?_, fun r => rfl, ?_⟩
    · rw [SubjectOf.nulFree, noNul, Bool.not_eq_true'] at hnul
      simpa [SubjectOf.termKey] using hnul
    · rw [SubjectOf.termKey, termFromKey, BNodeOf.ofChars_value]
      rfl

/-- The key of a triple term whose subject is a name is read part by part. -/
theorem termFromKey_triple {s : SubjectOf ok} {p : URIRefOf ok} {o : TermOf ok}
    (hname : s.isName = true) (hs : s.nulFree = true) (hp : noNul p.value = true)
    (ho : termFromKey o.termKey = .ok o) :
    termFromKey (SubjectOf.triple s p o).termKey = .ok (.subject (.triple s p o)) := by
  obtain ⟨hnul, hn3, hread⟩ := termKey_name hname hs
  have hfirst := splitNul_append hnul (p.termKey ++ '\x00' :: o.termKey)
  have hsecond := splitNul_append (termKey_noNul hp) o.termKey
  rw [SubjectOf.termKey]
  simp only [cons_append, append_assoc]
  rw [termFromKey, hn3, if_neg Bool.false_ne_true]
  split
  · rename_i hnone
    exact absurd (hnone.symm.trans hfirst) (some_ne_none _).symm
  · rename_i sk more hsome
    obtain ⟨rfl, rfl⟩ := by simpa using hsome.symm.trans hfirst
    split
    · rename_i hnone
      exact absurd (hnone.symm.trans hsecond) (some_ne_none _).symm
    · rename_i pk key hsome
      obtain ⟨rfl, rfl⟩ := by simpa using hsome.symm.trans hsecond
      rw [hread, termFromKey_uri, ho]
      rfl

/-- A readable term is read off its key. The recursion follows the objects of nested
    triple terms. -/
theorem termFromKey_of_readable (t : TermOf ok) (h : t.Readable) :
    termFromKey t.termKey = .ok t := by
  match t with
  | .literal l =>
    rw [TermOf.termKey, literalKey_of_named h.named, termFromKey, literalFromN3_n3]
    rfl
  | .subject (.uri u) => exact termFromKey_uri u
  | .subject (.bnode b) => exact (termKey_name rfl h.nulFree).2.2
  | .subject (.triple s p o) =>
    obtain ⟨hnul, hnest, hnamed⟩ := h
    simp only [TermOf.nulFree, SubjectOf.nulFree, TermOf.wellNested, SubjectOf.wellNested,
      TermOf.named, SubjectOf.named, Bool.and_eq_true] at hnul hnest hnamed
    exact termFromKey_triple hnest.1 hnul.1.1 hnul.1.2
      (termFromKey_of_readable o ⟨hnul.2, hnest.2, hnamed.2⟩)
termination_by sizeOf t

theorem takeWhile_noNul (cs : List Char) :
    (cs.takeWhile (· != '\x00')).contains '\x00' = false := by
  refine Bool.eq_false_iff.mpr fun hmem => ?_
  exact absurd (mem_takeWhile_imp (contains_iff_mem.mp hmem)) (by simp)

theorem splitNul_fst {b : List Char} (h : splitNul cs = some (a, b)) :
    a = cs.takeWhile (· != '\x00') := by
  unfold splitNul at h
  split at h
  · cases h
  · exact (congrArg Prod.fst (some.inj h)).symm

theorem splitNul_of_noNul (h : cs.contains '\x00' = false) : splitNul cs = none := by
  have hdrop : cs.dropWhile (· != '\x00') = [] := by
    rw [dropWhile_eq_nil_iff]
    intro c hc
    rw [bne_iff_ne]
    rintro rfl
    exact absurd (contains_iff_mem.mpr hc) (by rw [h]; exact Bool.false_ne_true)
  rw [splitNul, hdrop]

theorem SubjectOf.termKey_head (s : SubjectOf ok) : ∃ c r, s.termKey = c :: r ∧
    c ∈ ['U', 'B', 'T'] := by
  cases s with
  | uri u => exact ⟨'U', _, rfl, by decide⟩
  | bnode b => exact ⟨'B', _, rfl, by decide⟩
  | triple s p o => exact ⟨'T', _, rfl, by decide⟩

/-- The first part of a triple term's key is cut at the first NUL. If its subject is a
    triple term, what is cut off has no NUL left. -/
theorem termFromKey_subject_error {s : SubjectOf ok} (hname : s.isName = false) {b r : List Char}
    (hsplit : splitNul (s.termKey ++ r) = some (a, b)) :
    ∃ e, (termFromKey a : Except DecodeError (TermOf ok)) = .error e := by
  cases s with
  | uri u | bnode u => cases hname
  | triple s p o =>
    obtain ⟨c, ds, hkey, hc⟩ := s.termKey_head
    have hcut := splitNul_fst hsplit
    simp only [SubjectOf.termKey, hkey, cons_append] at hcut
    have ha : ∃ body, a = 'T' :: ':' :: body ∧ body.contains '\x00' = false ∧
        ['<', '<', '('].isPrefixOf body = false := by
      refine ⟨_, hcut, takeWhile_noNul _, ?_⟩
      simp only [mem_cons, not_mem_nil, or_false] at hc
      rcases hc with rfl | rfl | rfl <;> rfl
    obtain ⟨body, rfl, hbody, hn3⟩ := ha
    have hnone := splitNul_of_noNul hbody
    rw [termFromKey, hn3, if_neg Bool.false_ne_true]
    split
    · exact ⟨_, rfl⟩
    · rename_i hsome
      exact absurd (hnone.symm.trans hsome) (some_ne_none _).symm

theorem newTripleTerm_subject_error {sk pk : List Char} {s p o : Except DecodeError (TermOf ok)}
    (h : ∃ e, s = .error e) : ∃ e, newTripleTerm sk pk s p o = .error e := by
  obtain ⟨e, rfl⟩ := h
  exact ⟨_, rfl⟩

theorem newTripleTerm_object_error {sk pk : List Char} {s p o : Except DecodeError (TermOf ok)}
    (h : ∃ e, o = .error e) : ∃ e, newTripleTerm sk pk s p o = .error e := by
  obtain ⟨e, rfl⟩ := h
  rcases s with e | s
  · exact ⟨_, rfl⟩
  simp only [newTripleTerm, Except.mapError, Bind.bind, Except.bind]
  cases tripleSubject sk s with
  | error e => exact ⟨_, rfl⟩
  | ok subj =>
    rcases p with e | p
    · exact ⟨_, rfl⟩
    · dsimp only
      cases triplePredicate pk p <;> exact ⟨_, rfl⟩

/-- A term with a triple term for the subject of another is not read off its key. -/
theorem termFromKey_error_of_not_wellNested (t : TermOf ok) (hnul : t.nulFree = true)
    (h : t.wellNested = false) :
    ∃ e, (termFromKey t.termKey : Except DecodeError (TermOf ok)) = .error e := by
  match t with
  | .literal l | .subject (.uri u) | .subject (.bnode b) => cases h
  | .subject (.triple s p o) =>
    simp only [TermOf.nulFree, SubjectOf.nulFree, TermOf.wellNested, SubjectOf.wellNested,
      Bool.and_eq_true, Bool.and_eq_false_iff] at hnul h
    have hn3 : ['<', '<', '('].isPrefixOf
        (s.termKey ++ '\x00' :: (p.termKey ++ '\x00' :: o.termKey)) = false := by
      obtain ⟨c, ds, hkey, hc⟩ := s.termKey_head
      simp only [mem_cons, not_mem_nil, or_false] at hc
      rw [hkey]
      rcases hc with rfl | rfl | rfl <;> rfl
    simp only [TermOf.termKey, SubjectOf.termKey, cons_append, append_assoc]
    rw [termFromKey, hn3, if_neg Bool.false_ne_true]
    split
    · exact ⟨_, rfl⟩
    rename_i sk more hsk
    split
    · exact ⟨_, rfl⟩
    rename_i pk key hpk
    cases hname : s.isName with
    | false => exact newTripleTerm_subject_error (termFromKey_subject_error hname hsk)
    | true =>
      -- The parts are those of the term, so the object is what fails.
      obtain ⟨hs, -, -⟩ := termKey_name hname hnul.1.1
      have hfirst := hsk.symm.trans (splitNul_append hs _)
      obtain ⟨rfl, rfl⟩ := by simpa using hfirst
      have hsecond := hpk.symm.trans (splitNul_append (termKey_noNul hnul.1.2) _)
      obtain ⟨rfl, rfl⟩ := by simpa using hsecond
      exact newTripleTerm_object_error (termFromKey_error_of_not_wellNested o hnul.2
        (h.resolve_left (by rw [hname]; exact Bool.true_eq_false.mp)))
termination_by sizeOf t

/-- `TermFromKey` reads a term with the same N3 form off the key of a term that is
    readable, and keys identify such terms. -/
theorem termFromKey_termKey (t u : TermOf anyChar) (ht : t.Readable) (hu : u.Readable) :
    (∃ t' : TermOf anyChar, termFromKey t.termKey = .ok t' ∧ t' = t ∧ t'.n3 = t.n3) ∧
      (t.termKey = u.termKey ↔ t = u) ∧
      ∀ v : TermOf anyChar, v.nulFree = true → v.wellNested = false →
        ∃ e, (termFromKey v.termKey : Except DecodeError (TermOf anyChar)) = .error e := by
  refine ⟨⟨t, termFromKey_of_readable t ht, rfl, rfl⟩, ⟨fun hkey => ?_, congrArg _⟩,
    termFromKey_error_of_not_wellNested⟩
  have hread : (.ok t : Except DecodeError (TermOf anyChar)) = .ok u := by
    rw [← termFromKey_of_readable t ht, ← termFromKey_of_readable u hu, hkey]
  exact Except.ok.inj hread

/-- `<a>` without a check. -/
def plainIri : URIRefOf anyChar := ⟨"a", rfl⟩

/-- `<<( <a> <a> "x\ny"@en--ltr )>>` and `<<( <a> <a> 1.5e3 )>>` come back. -/
theorem termFromKey_nested :
    let tag : LangTag := ⟨"en", by decide⟩
    let directed : TermOf anyChar := .literal ⟨"x\ny", .dirLang tag .ltr⟩
    let double : TermOf anyChar :=
      .literal ⟨"1.5e3", .typed ⟨xsdDouble, by decide⟩ fun _ => by decide⟩
    let t : TermOf anyChar := .subject (.triple (.uri plainIri) plainIri directed)
    let u : TermOf anyChar := .subject (.triple (.uri plainIri) plainIri double)
    (∃ t', termFromKey t.termKey = .ok t' ∧ t' = t ∧ t'.n3 = t.n3) ∧
      (t.termKey = u.termKey ↔ t = u) := by
  intro tag directed double t u
  obtain ⟨hread, hkey, -⟩ := termFromKey_termKey t u ⟨by decide, by decide, by decide⟩
    ⟨by decide, by decide, by decide⟩
  exact ⟨hread, hkey⟩

/-- `<<( <<( <a> <a> <a> )>> <a> <a> )>>`: the NULs of the inner key are taken for those
    of the outer one. And the key of a literal leaves out an empty datatype. -/
theorem termFromKey_subject_triple :
    let inner : SubjectOf anyChar := .triple (.uri plainIri) plainIri plainIri.toTerm
    let t : TermOf anyChar := .subject (.triple inner plainIri plainIri.toTerm)
    (t.nulFree = true ∧ ∀ t' : TermOf anyChar, termFromKey t.termKey ≠ .ok t') ∧
      (TermOf.literal ⟨"x", .typed ⟨"", rfl⟩ nofun⟩ : TermOf anyChar).termKey =
        (TermOf.literal ⟨"x", .typed ⟨xsdString, rfl⟩ nofun⟩ : TermOf anyChar).termKey := by
  intro inner t
  refine ⟨⟨by decide, fun t' h => ?_⟩, by decide⟩
  obtain ⟨e, he⟩ := termFromKey_error_of_not_wellNested t (by decide) (by decide)
  exact absurd (he.symm.trans h) (by simp)

end GoRdf
