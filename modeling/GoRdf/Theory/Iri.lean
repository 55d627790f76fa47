import GoRdf.Core.Iri
import Mathlib.Data.List.TakeWhile

/-!
# References for Targets

A reference made for a target is one the readers turn back into the target. It is kept only if
it resolves to the target, so what is left to show is that the readers resolve it: none of the
references that are tried starts with a scheme.

## Main definitions

* `NoScheme`: A text that does not start with a scheme.

## Theorems

* `noScheme_candidates`: No reference that is tried has a scheme.
* `relativize_resolves`: The readers turn a reference made for a target back into it.
-/

namespace GoRdf

open List

namespace Iri

variable {path s : Text} {n : Nat} {fragment query : Option Text}

/-! ## Up to a mark -/

theorem spanMarks_append_eq (marks : List Char) (s : Text) :
    (spanMarks marks s).1 ++ (spanMarks marks s).2 = s :=
  takeWhile_append_dropWhile

theorem not_mem_spanMarks {marks : List Char} {c : Char} (h : c ∈ (spanMarks marks s).1) :
    c ∉ marks := by
  have hall := mem_takeWhile_imp h
  simpa using hall

theorem head_spanMarks {marks : List Char} {c : Char} (h : (spanMarks marks s).2.head? = some c) :
    c ∈ marks := by
  have hnot := head?_dropWhile_not (fun c => !marks.contains c) s
  rw [show (s.dropWhile fun c => !marks.contains c).head? = some c from h] at hnot
  simpa using hnot

/-! ## Components -/

/-- A text that does not start with a scheme. -/
def NoScheme (s : Text) : Prop :=
  ∀ x r, s = x ++ ':' :: r → validScheme x = false

/-- A scheme has no mark in it, so that the first colon is where it ends. -/
theorem not_mark_of_validScheme {x : Text} (h : validScheme x = true) :
    ∀ c ∈ x, c ∉ [':', '/', '?', '#'] := by
  have hmarks : ∀ c ∈ [':', '/', '?', '#'], isLetter c = false ∧ isSchemeChar c = false := by
    simp [isLetter, isSchemeChar]
  cases x with
  | nil => exact nofun
  | cons d x =>
    rw [validScheme, Bool.and_eq_true, all_eq_true] at h
    intro c hc hmark
    rcases mem_cons.mp hc with rfl | hc
    · rw [(hmarks c hmark).1] at h
      cases h.1
    · have hchar := h.2 c hc
      rw [(hmarks c hmark).2] at hchar
      cases hchar

/-- A mark of the end of a first segment comes before any colon. -/
theorem NoScheme.append {a b : Text} (ha : NoScheme a)
    (hb : ∀ c, b.head? = some c → c ∈ ['/', '?', '#']) : NoScheme (a ++ b) := by
  intro x r heq
  by_contra hvalid
  rw [Bool.not_eq_false] at hvalid
  rcases append_eq_append_iff.mp heq with ⟨x', rfl, hrest⟩ | ⟨a', rfl, hrest⟩
  · cases x' with
    | nil =>
      have hcolon := hb ':' (by rw [hrest]; rfl)
      exact nomatch hcolon
    | cons c x' =>
      have hmark := hb c (by rw [hrest]; rfl)
      refine not_mark_of_validScheme hvalid c (by simp) (mem_cons_of_mem ':' hmark)
  · cases a' with
    | nil =>
      have hcolon := hb ':' (by rw [← show ':' :: r = b from hrest]; rfl)
      exact nomatch hcolon
    | cons c a' =>
      obtain ⟨rfl, -⟩ := List.cons.inj hrest
      rw [ha x a' rfl] at hvalid
      cases hvalid

theorem noScheme_nil : NoScheme [] := by
  intro x r heq
  cases x <;> cases heq

theorem noScheme_of_notMem (h : ':' ∉ s) : NoScheme s := by
  rintro x r rfl
  exact absurd (by simp) h

/-- A reference that starts with a mark has no room for a scheme. -/
theorem noScheme_of_head (h : ∀ c, s.head? = some c → c ∈ ['/', '?', '#']) : NoScheme s :=
  noScheme_nil.append h

theorem noScheme_dot (s : Text) : NoScheme ('.' :: s) := by
  intro x r heq
  cases x with
  | nil => rfl
  | cons c x =>
    obtain ⟨rfl, -⟩ := List.cons.inj heq
    rfl

/-- What comes after the path. -/
def tail (query fragment : Option Text) : Text :=
  marked ['?'] query ++ marked ['#'] fragment

theorem head_tail {c : Char} (h : (tail query fragment).head? = some c) : c ∈ ['?', '#'] := by
  cases query <;> cases fragment <;> simp_all [tail, marked, eq_comm]

theorem isPrefixOf_slash (path : Text) : ['/'].isPrefixOf path = true ↔ path.head? = some '/' := by
  cases path with
  | nil => simp
  | cons c path =>
    rw [isPrefixOf_cons_cons, head?_cons, Bool.and_eq_true, beq_iff_eq, Option.some.injEq, eq_comm]
    exact and_iff_left rfl

/-! ## References for targets -/

/-- Without a scheme a reference is taken as relative, as it was meant. -/
theorem isAbsoluteIRI_eq_false (h : NoScheme s) : isAbsoluteIRI s = false := by
  have hspan := spanMarks_append_eq [':'] s
  have hbefore : ':' ∉ (spanMarks [':'] s).1 := fun hmem =>
    not_mem_spanMarks hmem (mem_singleton_self ':')
  rw [isAbsoluteIRI, Bool.and_eq_false_iff]
  cases hrest : (spanMarks [':'] s).2 with
  | nil =>
    rw [hrest, append_nil] at hspan
    rw [hspan] at hbefore
    exact .inl (by simpa using hbefore)
  | cons c r =>
    have hcolon : c ∈ [':'] := head_spanMarks (s := s) (by rw [hrest]; rfl)
    rw [hrest, mem_singleton.mp hcolon] at hspan
    exact .inr (h _ r hspan.symm)

/-- A first segment with a colon would read as a scheme; `./` is put before it. -/
theorem noScheme_pathSegmentRef (p : Text) :
    NoScheme (pathSegmentRef p ++ tail query fragment) := by
  have htail : ∀ c, (tail query fragment).head? = some c → c ∈ ['/', '?', '#'] :=
    fun c hc => mem_cons_of_mem _ (head_tail hc)
  rw [pathSegmentRef]
  by_cases hp : p = [] ∨ (spanMarks ['/'] p).1.contains ':' = true
  · rw [if_pos hp]
    exact noScheme_dot _
  · rw [if_neg hp]
    -- The first segment has no colon, and a mark comes after it.
    have hfirst : NoScheme (spanMarks ['/'] p).1 :=
      noScheme_of_notMem (by simpa using (not_or.mp hp).2)
    have hwhole := hfirst.append (b := (spanMarks ['/'] p).2) fun c hc =>
      mem_cons.mpr (.inl (mem_singleton.mp (head_spanMarks hc)))
    rw [spanMarks_append_eq] at hwhole
    exact hwhole.append htail

/-- Going up the directories, a reference starts with dots from the second on. -/
theorem noScheme_directoryRefs {suffix : Text} {dir up : Text}
    (hsuffix : ∃ query fragment, suffix = tail query fragment)
    (hup : up = [] ∨ ∃ r, up = '.' :: r) :
    ∀ ref ∈ directoryRefs path suffix n dir up, NoScheme ref := by
  induction n generalizing dir up with
  | zero => exact nofun
  | succ n ih =>
    intro ref hmem
    rcases mem_append.mp hmem with hmem | hmem
    · rw [directoryRef] at hmem
      split at hmem
      · obtain rfl := mem_singleton.mp hmem
        obtain ⟨query, fragment, rfl⟩ := hsuffix
        rcases hup with rfl | ⟨r, rfl⟩
        · exact noScheme_pathSegmentRef _
        · exact noScheme_dot _
      · cases hmem
    · split at hmem
      · cases hmem
      · refine ih ?_ ref hmem
        rcases hup with rfl | ⟨r, rfl⟩
        · exact .inr ⟨_, rfl⟩
        · exact .inr ⟨_, rfl⟩

/-- No reference that is tried has a scheme. -/
theorem noScheme_candidates {b t : Components} {ref : Text} (h : ref ∈ candidates b t) :
    NoScheme ref := by
  have htail : ∀ query fragment, NoScheme (tail query fragment) := fun query fragment =>
    noScheme_of_head fun c hc => mem_cons_of_mem _ (head_tail hc)
  rw [candidates] at h
  simp only [mem_append] at h
  rcases h with (h | h) | h
  · -- Within one document: nothing, a fragment, or a query with a fragment.
    split at h
    · rcases mem_cons.mp h with rfl | h
      · exact noScheme_nil
      · rcases mem_append.mp h with h | h
        · split at h
          · obtain rfl := mem_singleton.mp h
            exact htail none t.fragment
          · cases h
        · obtain rfl := mem_singleton.mp h
          exact htail t.query t.fragment
    · cases h
  · split at h
    · cases h
    · exact noScheme_directoryRefs ⟨_, _, rfl⟩ (.inl rfl) ref h
  · split at h
    · next hrooted =>
        obtain rfl := mem_singleton.mp h
        have hhead := (isPrefixOf_slash _).mp hrooted.2.1
        refine noScheme_of_head fun c hc => ?_
        rw [head?_append, hhead] at hc
        cases hc
        decide
    · cases h

/-- A reference written for a target reads back as the target. -/
theorem relativize_resolves {base target ref : Text} (h : relativize base target = some ref) :
    resolveIRI base ref = target := by
  rw [relativize] at h
  split at h
  · cases h
  · next hparts =>
      -- The best so far is the target, or a reference that was tried and resolves to it.
      have hbest := List.foldlRecOn (candidates (split base) (split target))
        (fun best ref =>
          if ref.length < best.length ∧ resolve base ref = target then ref else best)
        (motive := fun best => best = target ∨ resolve base best = target ∧ NoScheme best)
        (b := target) (.inl rfl) (by
          intro best hbest ref hmem
          split
          · next hshort => exact .inr ⟨hshort.2, noScheme_candidates hmem⟩
          · exact hbest)
      dsimp only at h
      split at h
      · cases h
      · next hne =>
          cases h
          obtain ⟨hresolve, hscheme⟩ := hbest.resolve_left hne
          have hbase : base ≠ [] := by
            rintro rfl
            exact (not_or.mp hparts).1 rfl
          rw [resolveIRI, if_neg (by simp [hbase, isAbsoluteIRI_eq_false hscheme])]
          exact hresolve

/-- A reference through the directory above. -/
theorem relativize_resolves_up :
    resolveIRI ['s', ':', '/', '/', 'h', '/', 'a', '/', 'b', '/', 'c']
        ['.', '.', '/', 'x', '?', 'q'] =
      ['s', ':', '/', '/', 'h', '/', 'a', '/', 'x', '?', 'q'] :=
  relativize_resolves (by decide +kernel)

end Iri

end GoRdf
