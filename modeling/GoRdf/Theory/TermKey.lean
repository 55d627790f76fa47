import Mathlib.Data.Set.Function
import GoRdf.Theory.LiteralText

/-!
# Keys Identify Terms

`TermKey` and `N3` are injective, so that filing a triple under its keys, or
comparing two bindings by their N3 form, is the same as comparing the terms.

Both functions nest: a triple term writes its parts one after the other, with
a NUL between keys and a space between N3 forms. Injectivity is therefore
proved for a text with something behind it. Wherever two terms' texts are
followed by a stop character (or by nothing) and the wholes agree, the terms
agree and so do the remainders.

## Theorems

* `TermOf.termKey_injective`: `TermKey` identifies a term without NUL.
* `Term.n3_inj`: `N3` identifies a term with valid names.
* `Term.pairKey_inj`: Two keys joined by a bar identify the pair.
-/

namespace GoRdf

open Lib List URIRefOf

variable {r₁ r₂ : List Char} {ok : Char → Bool}

/-! ## Names -/

section

variable (h₁ : Stops (isStop ok) r₁) (h₂ : Stops (isStop ok) r₂)

include h₁ h₂

theorem URIRefOf.value_append_inj {u v : URIRefOf ok}
    (h : u.value.toList ++ r₁ = v.value.toList ++ r₂) : u = v ∧ r₁ = r₂ := by
  rcases append_inj_of_stops (all_ok_not_isStop u.valid) (all_ok_not_isStop v.valid) h₁ h₂ h
    with ⟨huv, hr⟩
  exact ⟨ext_value huv, hr⟩

theorem BNodeOf.value_append_inj {a b : BNodeOf ok}
    (h : a.value.toList ++ r₁ = b.value.toList ++ r₂) : a = b ∧ r₁ = r₂ := by
  rcases append_inj_of_stops (all_ok_not_isStop a.valid) (all_ok_not_isStop b.valid) h₁ h₂ h
    with ⟨hab, hr⟩
  exact ⟨BNodeOf.ext_value hab, hr⟩

theorem URIRefOf.termKey_append_inj {u v : URIRefOf ok} (h : u.termKey ++ r₁ = v.termKey ++ r₂) :
    u = v ∧ r₁ = r₂ := by
  simp only [termKey, cons_append, List.cons.injEq, true_and] at h
  exact value_append_inj h₁ h₂ h

theorem URIRefOf.n3_append_inj {u v : URIRefOf ok} (h : u.n3 ++ r₁ = v.n3 ++ r₂) :
    u = v ∧ r₁ = r₂ := by
  have hns : ∀ w : URIRefOf ok, ∀ c ∈ w.n3, isStop ok c = false := by
    intro w c hc
    simp only [n3, cons_append, mem_cons, mem_append] at hc
    rcases hc with rfl | hc | rfl | hc
    · exact not_isStop (by decide)
    · exact all_ok_not_isStop w.valid c hc
    · exact not_isStop (by decide)
    · cases hc
  rcases append_inj_of_stops (hns u) (hns v) h₁ h₂ h with ⟨huv, hr⟩
  exact ⟨ext_value (append_cancel_right (List.cons.inj huv).2), hr⟩

end

theorem isStop_nul (hnul : ok '\x00' = false) : isStop ok '\x00' = true := by
  simp [isStop, hnul]

mutual

/-- The key of a subject is read back off the front. The recursion follows the
    nesting of triple terms, whose parts NUL delimits. -/
theorem SubjectOf.termKey_append_inj (hnul : ok '\x00' = false) :
    ∀ (s t : SubjectOf ok) {r₁ r₂ : List Char}, Stops (isStop ok) r₁ → Stops (isStop ok) r₂ →
      s.termKey ++ r₁ = t.termKey ++ r₂ → s = t ∧ r₁ = r₂
  | .uri u, .uri v, r₁, r₂, h₁, h₂, h => by
    rcases termKey_append_inj h₁ h₂ h with ⟨huv, hr⟩
    exact ⟨by rw [huv], hr⟩
  | .bnode a, .bnode b, r₁, r₂, h₁, h₂, h => by
    simp only [SubjectOf.termKey, cons_append, List.cons.injEq, true_and] at h
    rcases BNodeOf.value_append_inj h₁ h₂ h with ⟨hab, hr⟩
    exact ⟨by rw [hab], hr⟩
  | .triple s p o, .triple s' p' o', r₁, r₂, h₁, h₂, h => by
    simp only [SubjectOf.termKey, cons_append, append_assoc, List.cons.injEq, true_and] at h
    have hstop : ∀ r, Stops (isStop ok) ('\x00' :: r) := Stops.cons (isStop_nul hnul)
    rcases SubjectOf.termKey_append_inj hnul s s' (hstop _) (hstop _) h with ⟨hs, h⟩
    rcases termKey_append_inj (hstop _) (hstop _) (List.cons.inj h).2 with ⟨hp, h⟩
    rcases TermOf.termKey_append_inj hnul o o' h₁ h₂ (List.cons.inj h).2 with ⟨ho, hr⟩
    exact ⟨by rw [hs, hp, ho], hr⟩
  | .uri _, .bnode _, _, _, _, _, h | .uri _, .triple _ _ _, _, _, _, _, h
  | .bnode _, .uri _, _, _, _, _, h => by simp [SubjectOf.termKey, termKey] at h
  | .bnode _, .triple _ _ _, _, _, _, _, h => by simp [SubjectOf.termKey] at h
  | .triple _ _ _, .uri _, _, _, _, _, h => by simp [SubjectOf.termKey, termKey] at h
  | .triple _ _ _, .bnode _, _, _, _, _, h => by simp [SubjectOf.termKey] at h

/-- The key of a term is read back off the front. -/
theorem TermOf.termKey_append_inj (hnul : ok '\x00' = false) :
    ∀ (s t : TermOf ok) {r₁ r₂ : List Char}, Stops (isStop ok) r₁ → Stops (isStop ok) r₂ →
      s.termKey ++ r₁ = t.termKey ++ r₂ → s = t ∧ r₁ = r₂
  | .subject s, .subject t, r₁, r₂, h₁, h₂, h => by
    rcases SubjectOf.termKey_append_inj hnul s t h₁ h₂ h with ⟨hst, hr⟩
    exact ⟨by rw [hst], hr⟩
  | .literal l, .literal m, r₁, r₂, h₁, h₂, h => by
    simp only [TermOf.termKey, LiteralOf.literalKey_eq hnul, cons_append, List.cons.injEq,
      true_and] at h
    rcases LiteralOf.n3_append_inj h₁ h₂ h with ⟨hlm, hr⟩
    exact ⟨by rw [hlm], hr⟩
  | .subject s, .literal _, _, _, _, _, h | .literal _, .subject s, _, _, _, _, h => by
    cases s <;> simp [TermOf.termKey, SubjectOf.termKey, termKey, LiteralOf.literalKey_eq hnul] at h

end

/-- `TermKey` identifies a term whose names have no NUL in them. -/
theorem TermOf.termKey_injective (hnul : ok '\x00' = false) {s t : TermOf ok}
    (h : s.termKey = t.termKey) : s = t := by
  have h' : s.termKey ++ [] = t.termKey ++ [] := by rw [h]
  exact (TermOf.termKey_append_inj hnul s t (Stops.nil _) (Stops.nil _) h').1

/-- An IRI has no `<` in it, so its N3 form is not the start of a triple term. -/
theorem URIRefOf.n3_ne_triple (hlt : ok '<' = false) (u : URIRefOf ok) (r₁ r₂ : List Char) :
    u.n3 ++ r₁ ≠ '<' :: '<' :: r₂ := by
  intro h
  have hv := u.valid
  rw [n3] at h
  cases hu : u.value.toList with
  | nil => simp [hu] at h
  | cons c cs =>
    simp only [hu, cons_append, List.cons.injEq, true_and] at h
    rw [hu, h.1, all_cons, hlt] at hv
    cases hv

/-- A subject's N3 form starts as no literal's does. -/
theorem LiteralOf.n3_head (l : LiteralOf ok) : ∃ c r, l.n3 = c :: r ∧ c ≠ '<' ∧ c ≠ '_' := by
  rw [LiteralOf.n3]
  split
  · rename_i hb
    obtain ⟨dt, -, -, hs⟩ := LiteralOf.bare_spec hb
    cases hl : l.lexical.toList with
    | nil => exact absurd hl (isShorthand_ne_nil hs)
    | cons c r =>
      have hne := isShorthand_ne hs (hl ▸ mem_cons_self)
      exact ⟨c, r, rfl, hne '<' (by decide), hne '_' (by decide)⟩
  · obtain ⟨r, hq⟩ := quoted_head l.lexical.toList
    exact ⟨'\x22', r ++ l.kind.n3, by rw [hq]; rfl, by decide, by decide⟩

theorem SubjectOf.n3_head (s : SubjectOf ok) : ∃ c r, s.n3 = c :: r ∧ (c = '<' ∨ c = '_') := by
  cases s with
  | uri u => exact ⟨'<', _, rfl, .inl rfl⟩
  | bnode b => exact ⟨'_', _, rfl, .inr rfl⟩
  | triple s p o => exact ⟨'<', _, rfl, .inl rfl⟩

theorem SubjectOf.n3_ne_literal (s : SubjectOf ok) (l : LiteralOf ok) (r₁ r₂ : List Char) :
    s.n3 ++ r₁ ≠ l.n3 ++ r₂ := by
  intro h
  obtain ⟨c, r, hs, hc⟩ := s.n3_head
  obtain ⟨d, r', hl, hd⟩ := l.n3_head
  rw [hs, hl, cons_append, cons_append, List.cons.injEq] at h
  rw [h.1] at hc
  exact hc.elim hd.1 hd.2

mutual

/-- The N3 form of a subject is read back off the front. -/
theorem SubjectOf.n3_append_inj (hsp : ok ' ' = false) (hlt : ok '<' = false) :
    ∀ (s t : SubjectOf ok) {r₁ r₂ : List Char}, Stops (isStop ok) r₁ → Stops (isStop ok) r₂ →
      s.n3 ++ r₁ = t.n3 ++ r₂ → s = t ∧ r₁ = r₂
  | .uri u, .uri v, r₁, r₂, h₁, h₂, h => by
    rcases n3_append_inj h₁ h₂ h with ⟨huv, hr⟩
    exact ⟨by rw [huv], hr⟩
  | .bnode a, .bnode b, r₁, r₂, h₁, h₂, h => by
    simp only [SubjectOf.n3, cons_append, List.cons.injEq, true_and] at h
    rcases BNodeOf.value_append_inj h₁ h₂ h with ⟨hab, hr⟩
    exact ⟨by rw [hab], hr⟩
  | .triple s p o, .triple s' p' o', r₁, r₂, h₁, h₂, h => by
    simp only [SubjectOf.n3, cons_append, append_assoc, nil_append, List.cons.injEq, true_and] at h
    have hstop : ∀ r, Stops (isStop ok) (' ' :: r) := Stops.cons (by simp [isStop, hsp])
    rcases SubjectOf.n3_append_inj hsp hlt s s' (hstop _) (hstop _) h with ⟨hs, h⟩
    rcases n3_append_inj (hstop _) (hstop _) (List.cons.inj h).2 with ⟨hp, h⟩
    rcases TermOf.n3_append_inj hsp hlt o o' (hstop _) (hstop _) (List.cons.inj h).2 with ⟨ho, hr⟩
    simp only [List.cons.injEq, true_and] at hr
    exact ⟨by rw [hs, hp, ho], hr⟩
  | .uri u, .triple _ _ _, _, _, _, _, h => absurd h (u.n3_ne_triple hlt _ _)
  | .triple _ _ _, .uri u, _, _, _, _, h => absurd h.symm (u.n3_ne_triple hlt _ _)
  | .uri _, .bnode _, _, _, _, _, h | .bnode _, .uri _, _, _, _, _, h =>
    by simp [SubjectOf.n3, n3] at h
  | .bnode _, .triple _ _ _, _, _, _, _, h | .triple _ _ _, .bnode _, _, _, _, _, h =>
    by simp [SubjectOf.n3] at h

/-- The N3 form of a term is read back off the front. -/
theorem TermOf.n3_append_inj (hsp : ok ' ' = false) (hlt : ok '<' = false) :
    ∀ (s t : TermOf ok) {r₁ r₂ : List Char}, Stops (isStop ok) r₁ → Stops (isStop ok) r₂ →
      s.n3 ++ r₁ = t.n3 ++ r₂ → s = t ∧ r₁ = r₂
  | .subject s, .subject t, r₁, r₂, h₁, h₂, h => by
    rcases SubjectOf.n3_append_inj hsp hlt s t h₁ h₂ h with ⟨hst, hr⟩
    exact ⟨by rw [hst], hr⟩
  | .literal l, .literal m, r₁, r₂, h₁, h₂, h => by
    rcases LiteralOf.n3_append_inj h₁ h₂ h with ⟨hlm, hr⟩
    exact ⟨by rw [hlm], hr⟩
  | .subject s, .literal l, _, _, _, _, h => absurd h (s.n3_ne_literal l _ _)
  | .literal l, .subject s, _, _, _, _, h => absurd h.symm (s.n3_ne_literal l _ _)

end

/-- `TermKey` is injective on terms with valid names. -/
theorem Term.termKey_inj {s t : Term} : s.termKey = t.termKey ↔ s = t :=
  ⟨TermOf.termKey_injective (by decide), fun h => by rw [h]⟩

theorem Term.injOn_termKey : (Set.univ : Set Term).InjOn TermOf.termKey :=
  fun _ _ _ _ => Term.termKey_inj.mp

/-- `N3` is injective on terms with valid names, so comparing two bindings by
    their N3 form compares the terms. -/
theorem Term.n3_inj {s t : Term} : s.n3 = t.n3 ↔ s = t := by
  refine ⟨fun h => ?_, fun h => by rw [h]⟩
  have h' : s.n3 ++ [] = t.n3 ++ [] := by rw [h]
  exact (TermOf.n3_append_inj (by decide) (by decide) s t (Stops.nil _) (Stops.nil _) h').1

/-- The path evaluator's key of a pair, `TermKey(s) + "|" + TermKey(o)`, identifies
    the pair. -/
theorem Term.pairKey_inj {s t s' t' : Term}
    (h : s.termKey ++ '|' :: t.termKey = s'.termKey ++ '|' :: t'.termKey) : s = s' ∧ t = t' := by
  have hstop : ∀ r, Stops (isStop iriChar) ('|' :: r) := Stops.cons (by decide)
  rcases TermOf.termKey_append_inj (by decide) s s' (hstop _) (hstop _) h with ⟨hs, ht⟩
  exact ⟨hs, TermOf.termKey_injective (by decide) (List.cons.inj ht).2⟩

end GoRdf
