import Mathlib.Data.List.TakeWhile
import GoRdf.Core.Decode
import GoRdf.Lib.Delimited

/-!
# Literals Read Back

A literal is read off its N3 form, whatever its text: the escapes leave no closing
quote inside, and the shorthands are told apart by their shape. It is also read off
the front of a longer text. A quoted form ends at its closing quote, and a shorthand
or what follows the quotes ends at a character that it cannot have.

## Main definitions

* `isStop`: The characters that end a name in a composite text.

## Theorems

* `quoted_append_inj`: A quoted form is read back off the front of a text.
* `literalFromN3_n3`: A literal is read off its N3 form.
* `LiteralOf.n3_append_inj`: It is read back off the front of a text.
* `LiteralOf.literalKey_eq`: The key of a literal has its N3 form.
-/

namespace GoRdf

open Lib List LiteralOf

variable {r₁ r₂ cs : List Char} {c : Char} {d : String} {p : Char → Bool} {ok : Char → Bool}

/-! ## Quoted forms -/

/-- A character is written as itself, or as a backslash and a character that is read
    back as it. -/
theorem escapeChar_cases (c : Char) :
    (escapeChar c = [c] ∧ c ≠ '\x5c' ∧ c ≠ '\x22') ∨
      ∃ e, escapeChar c = ['\x5c', e] ∧
        ∀ r, unescapeLiteral ('\x5c' :: e :: r) = c :: unescapeLiteral r := by
  unfold escapeChar
  split_ifs with h₁ h₂ h₃ h₄ h₅
  · exact .inr ⟨_, rfl, fun r => by rw [h₁, unescapeLiteral]⟩
  · exact .inr ⟨_, rfl, fun r => by rw [h₂, unescapeLiteral]⟩
  · exact .inr ⟨_, rfl, fun r => by rw [h₃, unescapeLiteral]⟩
  · exact .inr ⟨_, rfl, fun r => by rw [h₄, unescapeLiteral]⟩
  · exact .inr ⟨_, rfl, fun r => by rw [h₅, unescapeLiteral]⟩
  · exact .inl ⟨rfl, h₁, h₂⟩

theorem escapeChar_ne_quote (a : Char) (r₁ r₂ : List Char) : escapeChar a ++ r₁ ≠ '\x22' :: r₂ := by
  intro h
  rcases escapeChar_cases a with ⟨hesc, -, ha⟩ | ⟨e, hesc, -⟩
  · rw [hesc] at h
    exact ha (List.cons.inj h).1
  · rw [hesc] at h
    cases h

/-- Away from the quote, the long form escapes a character as the short form
    does, and writes no raw quote for it. -/
theorem escapeQuoteRuns_escapeLongChar (q : Nat) (c : Char) (hc : c ≠ '\x22') (cs : List Char) :
    escapeQuoteRuns q (escapeLongChar c ++ cs) = escapeChar c ++ escapeQuoteRuns 0 cs := by
  rw [escapeLongChar, if_neg hc]
  unfold escapeChar
  split_ifs <;> simp [escapeQuoteRuns, hc]

/-- A text that is not all quotes, written from `q` raw quotes into a run on,
    starts with at most `2 - q` of them. -/
theorem escapeQuoteRuns_not_quotes (q : Nat) (cs r : List Char) (hq : q < 3)
    (hcs : cs.all (· == '\x22') = false) (k : Nat) (hk : 3 ≤ q + k) (r' : List Char) :
    escapeQuoteRuns q cs ++ r ≠ List.replicate k '\x22' ++ r' := by
  induction cs generalizing q k with
  | nil => cases hcs
  | cons c cs ih =>
    intro h
    obtain ⟨k, rfl⟩ : ∃ j, k = j + 1 := ⟨k - 1, by omega⟩
    rw [escapeQuoteRuns, replicate_succ] at h
    by_cases hc : c = '\x22'
    · have hcs' : cs.all (· == '\x22') = false := by
        simpa [hc] using hcs
      by_cases hq3 : q + 1 = 3
      · simp [hc, hq3] at h
      · simp only [hc, if_true, hq3, hcs', Bool.false_eq_true, or_self, if_false,
          cons_append, List.cons.injEq, true_and] at h
        exact ih (q + 1) (by omega) hcs' k (by omega) h
    · simp only [if_neg hc, cons_append, List.cons.injEq] at h
      exact hc h.1

/-- Escaping leaves quotes alone, which `escapeQuoteRuns` treats afterwards. -/
theorem flatMap_escapeLongChar_all_quotes (cs : List Char) :
    (cs.flatMap escapeLongChar).all (· == '\x22') = cs.all (· == '\x22') := by
  induction cs with
  | nil => rfl
  | cons c cs ih =>
    rw [flatMap_cons, all_append, ih]
    unfold escapeLongChar escapeChar
    split_ifs <;> simp_all

/-- A non-empty body never starts with the closing delimiter: either it has a
    character other than a quote in it, or all of it is escaped. -/
theorem escapeQuoteRuns_cons_ne_tripleQuote (q : Nat) (hq : q < 3) (c : Char)
    (cs r₁ r₂ : List Char) :
    escapeQuoteRuns q ((c :: cs).flatMap escapeLongChar) ++ r₁ ≠ tripleQuote ++ r₂ := by
  intro h
  by_cases hall : ((c :: cs).flatMap escapeLongChar).all (· == '\x22') = true
  · rw [flatMap_escapeLongChar_all_quotes, all_cons, Bool.and_eq_true, beq_iff_eq] at hall
    have hcs : (cs.flatMap escapeLongChar).all (· == '\x22') = true := by
      rw [flatMap_escapeLongChar_all_quotes, hall.2]
    rw [flatMap_cons, hall.1, escapeLongChar, if_pos rfl, singleton_append,
      escapeQuoteRuns, if_pos (Or.inr hcs)] at h
    simp [tripleQuote] at h
  · exact escapeQuoteRuns_not_quotes q _ r₁ hq (by simpa using hall) 3 (by omega) r₂ h

/-- A text that does not go on with a quote tells the two quoted forms apart: the
    short form has a quote among its first three characters only at the ends. -/
theorem short_ne_long (xs ys r₁ r₂ : List Char) (h₁ : ∀ c ∈ r₁.head?, c ≠ '\x22') :
    '\x22' :: escapeLiteral xs ++ ['\x22'] ++ r₁ ≠ tripleQuote ++ ys ++ r₂ := by
  intro h
  cases xs with
  | nil =>
    cases r₁ with
    | nil => simp [escapeLiteral, tripleQuote] at h
    | cons c r =>
      have hc : c = '\x22' := by
        simp only [escapeLiteral, tripleQuote, flatMap_nil, cons_append,
          nil_append, List.cons.injEq] at h
        exact h.2.2.1
      exact h₁ c rfl hc
  | cons x xs =>
    simp only [escapeLiteral, tripleQuote, flatMap_cons, cons_append,
      append_assoc, List.cons.injEq, true_and] at h
    exact escapeChar_ne_quote x _ _ h

theorem unescapeLiteral_cons (hc : c ≠ '\x5c') (cs : List Char) :
    unescapeLiteral (c :: cs) = c :: unescapeLiteral cs := by
  rw [unescapeLiteral.eq_def]
  split <;> simp_all

theorem unescapeLiteral_escapeChar (c : Char) (r : List Char) :
    unescapeLiteral (escapeChar c ++ r) = c :: unescapeLiteral r := by
  rcases escapeChar_cases c with ⟨hesc, hc, -⟩ | ⟨e, hesc, hread⟩
  · rw [hesc]
    exact unescapeLiteral_cons hc r
  · rw [hesc]
    exact hread r

/-- Escaping is undone, character by character. -/
theorem unescapeLiteral_escapeLiteral (cs : List Char) :
    unescapeLiteral (escapeLiteral cs) = cs := by
  induction cs with
  | nil => rfl
  | cons c cs ih =>
    rw [escapeLiteral, flatMap_cons, unescapeLiteral_escapeChar]
    exact congrArg (c :: ·) ih

theorem closeQuote_cons (hc : c ≠ '\x5c') (hq : c ≠ '\x22') (cs : List Char) :
    closeQuote (c :: cs) = (closeQuote cs).map fun r => (c :: r.1, r.2) := by
  rw [closeQuote.eq_def]
  split <;> simp_all

/-- The closing quote of the short form is the first one that is not escaped. -/
theorem closeQuote_escapeLiteral (cs r : List Char) :
    closeQuote (escapeLiteral cs ++ '\x22' :: r) = some (escapeLiteral cs, r) := by
  induction cs with
  | nil => rfl
  | cons c cs ih =>
    rw [escapeLiteral, flatMap_cons, append_assoc]
    change closeQuote (escapeChar c ++ (escapeLiteral cs ++ '\x22' :: r)) =
      some (escapeChar c ++ escapeLiteral cs, r)
    rcases escapeChar_cases c with ⟨hesc, hc, hq⟩ | ⟨e, hesc, -⟩
    · rw [hesc, singleton_append, closeQuote_cons hc hq, ih]
      rfl
    · rw [hesc, cons_append, singleton_append, closeQuote, ih]
      rfl

theorem closeTripleQuote_cons (hc : c ≠ '\x5c') (cs : List Char)
    (hq : tripleQuote.isPrefixOf (c :: cs) = false) :
    closeTripleQuote (c :: cs) = (closeTripleQuote cs).map fun r => (c :: r.1, r.2) := by
  rw [closeTripleQuote.eq_def]
  split <;> simp_all

theorem not_isPrefixOf_tripleQuote (h : ∀ r, cs ≠ tripleQuote ++ r) :
    tripleQuote.isPrefixOf cs = false := by
  rw [← Bool.not_eq_true, isPrefixOf_iff_prefix]
  rintro ⟨r, hr⟩
  exact h r hr.symm

/-- The closing delimiter of the long form is the first that is not escaped: no three
    raw quotes stand in the body, and none touches the end. -/
theorem closeTripleQuote_escapeQuoteRuns (q : Nat) (hq : q < 3) (cs r : List Char) :
    closeTripleQuote (escapeQuoteRuns q (cs.flatMap escapeLongChar) ++ (tripleQuote ++ r)) =
      some (escapeQuoteRuns q (cs.flatMap escapeLongChar), r) := by
  induction cs generalizing q with
  | nil => rfl
  | cons c cs ih =>
    have hopen := escapeQuoteRuns_cons_ne_tripleQuote q hq c cs (tripleQuote ++ r)
    rw [flatMap_cons] at hopen ⊢
    by_cases hc : c = '\x22'
    · rw [hc, escapeLongChar, if_pos rfl, singleton_append, escapeQuoteRuns, if_pos rfl] at hopen ⊢
      split_ifs at hopen ⊢ with hesc
      · rw [cons_append, cons_append, closeTripleQuote, ih 0 (by omega)]
        rfl
      · rw [cons_append] at hopen ⊢
        rw [closeTripleQuote_cons (by decide) _ (not_isPrefixOf_tripleQuote hopen),
          ih (q + 1) (by omega)]
        rfl
    · rw [escapeQuoteRuns_escapeLongChar q c hc, append_assoc] at hopen ⊢
      rcases escapeChar_cases c with ⟨hesc, hback, -⟩ | ⟨e, hesc, -⟩
      · rw [hesc, singleton_append] at hopen ⊢
        rw [closeTripleQuote_cons hback _ (not_isPrefixOf_tripleQuote hopen), ih 0 (by omega)]
        rfl
      · rw [hesc, cons_append, singleton_append, closeTripleQuote, ih 0 (by omega)]
        rfl

/-- The backslashes put into runs of quotes are dropped with the others. -/
theorem unescapeLiteral_escapeQuoteRuns (q : Nat) (cs : List Char) :
    unescapeLiteral (escapeQuoteRuns q (cs.flatMap escapeLongChar)) = cs := by
  induction cs generalizing q with
  | nil => rfl
  | cons c cs ih =>
    rw [flatMap_cons]
    by_cases hc : c = '\x22'
    · rw [hc, escapeLongChar, if_pos rfl, singleton_append, escapeQuoteRuns, if_pos rfl]
      split
      · rw [unescapeLiteral, ih]
      · rw [unescapeLiteral_cons (by decide), ih]
    · rw [escapeQuoteRuns_escapeLongChar q c hc, unescapeLiteral_escapeChar, ih]

/-- A quoted form followed by anything but a quote is read back off the front. -/
theorem quoted_append_inj (xs ys r₁ r₂ : List Char) (h₁ : ∀ c ∈ r₁.head?, c ≠ '\x22')
    (h₂ : ∀ c ∈ r₂.head?, c ≠ '\x22') (h : quoted xs ++ r₁ = quoted ys ++ r₂) :
    xs = ys ∧ r₁ = r₂ := by
  unfold quoted at h
  split_ifs at h
  · simp only [escapeTripleQuotedLiteral, append_assoc, append_cancel_left_eq] at h
    have hclose := congrArg closeTripleQuote h
    rw [closeTripleQuote_escapeQuoteRuns 0 (by omega),
      closeTripleQuote_escapeQuoteRuns 0 (by omega), Option.some.injEq, Prod.mk.injEq] at hclose
    rw [← unescapeLiteral_escapeQuoteRuns 0 xs, hclose.1, unescapeLiteral_escapeQuoteRuns]
    exact ⟨rfl, hclose.2⟩
  · exact absurd h.symm (short_ne_long ys _ r₂ r₁ h₂)
  · exact absurd h (short_ne_long xs _ r₁ r₂ h₁)
  · simp only [cons_append, append_assoc, nil_append, List.cons.injEq, true_and] at h
    have hclose := congrArg closeQuote h
    rw [closeQuote_escapeLiteral, closeQuote_escapeLiteral, Option.some.injEq,
      Prod.mk.injEq] at hclose
    rw [← unescapeLiteral_escapeLiteral xs, hclose.1, unescapeLiteral_escapeLiteral]
    exact ⟨rfl, hclose.2⟩

/-! ## Shorthand forms -/

/-- The characters of a numeric shorthand. -/
def isNumChar (c : Char) : Bool :=
  isDigit c || c == '+' || c == '-' || c == '.' || c == 'e' || c == 'E'

theorem isNumChar_of_isDigit {c : Char} (h : isDigit c = true) : isNumChar c = true := by
  rw [isNumChar, h]
  rfl

theorem all_isNumChar_of_skipSign (h : (skipSign cs).all isNumChar = true) :
    cs.all isNumChar = true := by
  unfold skipSign at h
  split at h
  · rw [all_cons, h]
    rfl
  · rw [all_cons, h]
    rfl
  · exact h

theorem all_isNumChar_of_skipDigits (h : (skipDigits cs).all isNumChar = true) :
    cs.all isNumChar = true := by
  induction cs with
  | nil => rfl
  | cons c cs ih =>
    rw [skipDigits, dropWhile_cons] at h
    split at h
    · rename_i hc
      rw [all_cons, isNumChar_of_isDigit hc, ih h]
      rfl
    · exact h

theorem all_isNumChar_of_allDigits (h : allDigits cs = true) : cs.all isNumChar = true := by
  rw [allDigits, Bool.and_eq_true] at h
  rw [all_eq_true] at h ⊢
  exact fun c hc => isNumChar_of_isDigit (h.2 c hc)

theorem skipDigits_eq_nil_of_allDigits (h : allDigits cs = true) : skipDigits cs = [] := by
  rw [allDigits, Bool.and_eq_true, all_eq_true] at h
  rw [skipDigits, dropWhile_eq_nil_iff]
  exact h.2

theorem isExponent_cons (h : isExponent cs = true) :
    ∃ c ds, cs = c :: ds ∧ (c = 'e' ∨ c = 'E') ∧ allDigits (skipSign ds) = true := by
  cases cs with
  | nil => cases h
  | cons c ds =>
    simp only [isExponent, Bool.and_eq_true, Bool.or_eq_true, beq_iff_eq] at h
    exact ⟨c, ds, rfl, h.1, h.2⟩

theorem all_isNumChar_of_isExponent (h : isExponent cs = true) : cs.all isNumChar = true := by
  obtain ⟨c, ds, rfl, hc, hds⟩ := isExponent_cons h
  rw [all_cons, all_isNumChar_of_skipSign (all_isNumChar_of_allDigits hds)]
  rcases hc with rfl | rfl <;> rfl

/-- The datatype of a shorthand, read off what follows its sign and first
    digits: nothing, a point with only digits behind it, or an exponent. -/
def shapeDatatype : List Char → String
  | [] => xsdInteger
  | '.' :: frac => if skipDigits frac = [] then xsdDecimal else xsdDouble
  | 'e' :: _ => xsdDouble
  | 'E' :: _ => xsdDouble
  | _ => xsdBoolean

theorem shapeDatatype_of_isExponent (h : isExponent cs = true) : shapeDatatype cs = xsdDouble := by
  obtain ⟨c, ds, rfl, hc, -⟩ := isExponent_cons h
  rcases hc with rfl | rfl <;> rfl

/-- A double has an exponent, after a fraction or at once; this is what tells it from a decimal. -/
theorem isTurtleDouble_spec (h : isTurtleDouble cs = true) :
    (∃ frac, skipDigits (skipSign cs) = '.' :: frac ∧ isExponent (skipDigits frac) = true) ∨
      isExponent (skipDigits (skipSign cs)) = true := by
  simp only [isTurtleDouble] at h
  split at h
  · rename_i frac hrest
    split at h
    · cases h
    · exact .inl ⟨frac, hrest, h⟩
  · split at h
    · cases h
    · exact .inr h

theorem isTurtleDecimal_spec (h : isTurtleDecimal cs = true) :
    ∃ frac, skipDigits (skipSign cs) = '.' :: frac ∧ allDigits frac = true := by
  rw [isTurtleDecimal] at h
  split at h
  · rename_i frac hrest
    exact ⟨frac, hrest, h⟩
  · cases h

theorem parseInt64_spec (h : (parseInt64 cs).isSome = true) : allDigits (skipSign cs) = true := by
  rw [parseInt64] at h
  split at h
  · assumption
  · exact absurd h (by simp only [Option.isSome_none, Bool.false_eq_true, not_false_eq_true])

/-- The datatypes with a shorthand have disjoint lexical spaces, so a bare token
    names its datatype. -/
theorem isShorthand_datatype (h : isShorthand d cs = true) :
    d = shapeDatatype (skipDigits (skipSign cs)) := by
  unfold isShorthand at h
  split_ifs at h with hi hd hc hb
  · rw [skipDigits_eq_nil_of_allDigits (parseInt64_spec h), hi]
    rfl
  · rcases isTurtleDouble_spec h with ⟨frac, hrest, hexp⟩ | hexp
    · obtain ⟨c, ds, hfrac, -⟩ := isExponent_cons hexp
      rw [hrest, hd, shapeDatatype, if_neg (by rw [hfrac]; exact cons_ne_nil c ds)]
    · rw [shapeDatatype_of_isExponent hexp, hd]
  · obtain ⟨frac, hrest, hfrac⟩ := isTurtleDecimal_spec h
    rw [hrest, hc, shapeDatatype, if_pos (skipDigits_eq_nil_of_allDigits hfrac)]
  · rw [Bool.or_eq_true, beq_iff_eq, beq_iff_eq] at h
    rcases h with rfl | rfl <;> rw [hb] <;> rfl

/-- A shorthand only has characters of numbers and of the two truth values. -/
theorem isShorthand_chars (h : isShorthand d cs = true) :
    cs.all isNumChar = true ∨ cs = ['t', 'r', 'u', 'e'] ∨ cs = ['f', 'a', 'l', 's', 'e'] := by
  unfold isShorthand at h
  split_ifs at h
  · exact .inl (all_isNumChar_of_skipSign (all_isNumChar_of_allDigits (parseInt64_spec h)))
  · refine .inl (all_isNumChar_of_skipSign (all_isNumChar_of_skipDigits ?_))
    rcases isTurtleDouble_spec h with ⟨frac, hrest, hexp⟩ | hexp
    · rw [hrest, all_cons, all_isNumChar_of_skipDigits (all_isNumChar_of_isExponent hexp)]
      rfl
    · exact all_isNumChar_of_isExponent hexp
  · obtain ⟨frac, hrest, hfrac⟩ := isTurtleDecimal_spec h
    refine .inl (all_isNumChar_of_skipSign (all_isNumChar_of_skipDigits ?_))
    rw [hrest, all_cons, all_isNumChar_of_allDigits hfrac]
    rfl
  · rw [Bool.or_eq_true, beq_iff_eq, beq_iff_eq] at h
    exact .inr h

/-- So it has none of these, which separate texts or start other ones. -/
theorem isShorthand_ne (h : isShorthand d cs = true) {c : Char} (hc : c ∈ cs) :
    ∀ e ∈ ['\x00', ' ', '|', '\x22', '<', '_'], c ≠ e := by
  rintro e he rfl
  have hothers : ∀ e ∈ ['\x00', ' ', '|', '\x22', '<', '_'],
      isNumChar e = false ∧ e ∉ ['t', 'r', 'u', 'e'] ∧ e ∉ ['f', 'a', 'l', 's', 'e'] := by
    simp [isNumChar, isDigit]
  obtain ⟨hnum, htrue, hfalse⟩ := hothers c he
  rcases isShorthand_chars h with hall | rfl | rfl
  · rw [all_eq_true.mp hall c hc] at hnum
    cases hnum
  · exact htrue hc
  · exact hfalse hc

theorem isShorthand_ne_nil (h : isShorthand d cs = true) : cs ≠ [] := by
  rintro rfl
  unfold isShorthand at h
  split_ifs at h <;> cases h

/-! ## What follows the quotes -/

/-- The automaton behind a hyphen asks for a character of the next subtag. -/
theorem subtags_zero_cons (h : subtags p 0 cs = true) :
    ∃ c ds, cs = c :: ds ∧ c ≠ '-' ∧ subtags p 1 ds = true := by
  cases cs with
  | nil => exact absurd h (by simp [subtags])
  | cons c ds =>
    rw [subtags] at h
    split at h
    · cases h
    · rename_i hc
      rw [Bool.and_eq_true] at h
      exact ⟨c, ds, rfl, hc, h.2⟩

theorem splitHyphens_cons (h : ∀ ds, c = '-' → cs ≠ '-' :: ds) :
    splitHyphens (c :: cs) = (splitHyphens cs).map fun r => (c :: r.1, r.2) := by
  rw [splitHyphens]
  exact h

/-- A tag has no two hyphens in a row and does not end in one, so the first `--` is the
    one that brings the direction. -/
theorem splitHyphens_subtags {n : Nat} (h : subtags p n cs = true) :
    splitHyphens cs = none ∧ ∀ d, splitHyphens (cs ++ '-' :: '-' :: d) = some (cs, d) := by
  induction cs generalizing p n with
  | nil => exact ⟨rfl, fun d => rfl⟩
  | cons c cs ih =>
    rw [subtags] at h
    split at h
    · rename_i hc
      rw [Bool.and_eq_true] at h
      obtain ⟨e, ds, rfl, he, -⟩ := subtags_zero_cons h.2
      have hskip : ∀ r, splitHyphens (c :: e :: r) =
          (splitHyphens (e :: r)).map fun r => (c :: r.1, r.2) :=
        fun r => splitHyphens_cons fun ds _ heq => he (List.cons.inj heq).1
      refine ⟨by rw [hskip, (ih h.2).1]; rfl, fun d => ?_⟩
      rw [cons_append, cons_append, hskip, ← cons_append, (ih h.2).2]
      rfl
    · rename_i hc
      rw [Bool.and_eq_true] at h
      have hskip : ∀ r, splitHyphens (c :: r) = (splitHyphens r).map fun r => (c :: r.1, r.2) :=
        fun r => splitHyphens_cons fun ds heq => absurd heq hc
      refine ⟨by rw [hskip, (ih h.2).1]; rfl, fun d => ?_⟩
      rw [cons_append, hskip, (ih h.2).2]
      rfl

theorem asciiLower_of_ne (h : isLowerLetter c = true ∨ isDigit c = true ∨ c = '-') :
    asciiLower c = c := by
  refine if_neg fun hc => ?_
  have hA : 'A'.toNat ≤ c.toNat := hc.1
  have hZ : c.toNat ≤ 'Z'.toNat := hc.2
  rcases h with h | h | rfl
  · rw [isLowerLetter, Bool.and_eq_true, decide_eq_true_eq] at h
    have ha : 'a'.toNat ≤ c.toNat := h.1
    exact absurd (ha.trans hZ) (by decide)
  · rw [isDigit, Bool.and_eq_true, decide_eq_true_eq, decide_eq_true_eq] at h
    have h9 : c.toNat ≤ '9'.toNat := h.2
    exact absurd (hA.trans h9) (by decide)
  · exact absurd hA (by decide)

/-- A valid tag is in lower case, so normalising it changes nothing. -/
theorem asciiLower_subtags {n : Nat}
    (hp : ∀ c, p c = true → isLowerLetter c = true ∨ isDigit c = true) (h : subtags p n cs = true) :
    cs.map asciiLower = cs := by
  induction cs generalizing p n with
  | nil => rfl
  | cons c cs ih =>
    rw [subtags] at h
    split at h
    · rename_i hc
      rw [Bool.and_eq_true] at h
      rw [map_cons, asciiLower_of_ne (.inr (.inr hc)), ih (fun d hd => by simpa using hd) h.2]
    · rw [Bool.and_eq_true, Bool.and_eq_true] at h
      rw [map_cons, asciiLower_of_ne ((hp c h.1.1).imp_right .inl), ih hp h.2]

theorem withLang_value (tag : LangTag) : withLang tag.value.toList = some tag := by
  have hlower := asciiLower_subtags (fun _ h => .inl h) tag.valid
  have hvalue : String.ofList (tag.value.toList.map asciiLower) = tag.value := by
    rw [hlower, String.ofList_toList]
  rw [withLang]
  simp only [hvalue, tag.valid, dite_true]

theorem withDir_text (dir : Direction) : withDir dir.text = some dir := by
  cases dir <;> rfl

theorem LiteralOf.ofTyped_eq (lexical : String) (dt : URIRefOf ok) (named) :
    LiteralOf.ofTyped lexical.toList dt.value.toList = .ok ⟨lexical, .typed dt named⟩ := by
  have hdt : String.ofList dt.value.toList = dt.value := String.ofList_toList
  rw [LiteralOf.ofTyped]
  simp only [hdt, String.ofList_toList]
  rw [dif_pos ⟨dt.valid, named⟩]

theorem ofTagged_nil (lexical : String) (tag : LangTag) :
    LiteralOf.ofTagged lexical.toList tag.value.toList [] =
      .ok (⟨lexical, .lang tag⟩ : LiteralOf ok) := by
  rw [LiteralOf.ofTagged, withLang_value]
  simp [withDir, Direction.text]

theorem ofTagged_dir (lexical : String) (tag : LangTag) (dir : Direction) :
    LiteralOf.ofTagged lexical.toList tag.value.toList dir.text =
      .ok (⟨lexical, .dirLang tag dir⟩ : LiteralOf ok) := by
  rw [LiteralOf.ofTagged, withLang_value, withDir_text]
  simp

/-- The suffix of a literal names its kind. -/
theorem literalSuffix_n3 (lexical : String) (k : LiteralKind ok) :
    literalSuffix lexical.toList k.n3 = .ok ⟨lexical, k⟩ := by
  cases k with
  | lang tag =>
    rw [LiteralKind.n3, literalSuffix, (splitHyphens_subtags tag.valid).1]
    exact ofTagged_nil lexical tag
  | dirLang tag dir =>
    have hsplit := (splitHyphens_subtags tag.valid).2 dir.text
    rw [LiteralKind.n3, append_assoc, cons_append, literalSuffix, cons_append, cons_append,
      nil_append, hsplit]
    exact ofTagged_dir lexical tag dir
  | typed dt named =>
    rw [LiteralKind.n3]
    split
    · rename_i hstr
      rw [literalSuffix, ← hstr]
      · exact ofTyped_eq lexical dt named
      all_goals simp
    · rw [URIRefOf.n3, cons_append, literalSuffix, getLast?_append, dropLast_concat]
      simpa using ofTyped_eq lexical dt named

/-! ## Literals -/

/-- The characters that end a name inside a composite text: the separators of
    keys, of N3 forms and of the path evaluator's pairs, where names cannot hold
    them. -/
def isStop (ok : Char → Bool) (c : Char) : Bool :=
  (c == '\x00' || c == ' ' || c == '|') && !ok c

theorem isStop_cases {c : Char} (h : isStop ok c = true) :
    (c = '\x00' ∨ c = ' ' ∨ c = '|') ∧ ok c = false := by
  simpa [isStop, or_assoc] using h

theorem not_isStop {c : Char} (h : c ≠ '\x00' ∧ c ≠ ' ' ∧ c ≠ '|') : isStop ok c = false := by
  simp [isStop, h.1, h.2.1, h.2.2]

/-- A text that starts at a stop does not start with a quote. -/
theorem Stops.ne_quote {r : List Char} (h : Stops (isStop ok) r) : ∀ c ∈ r.head?, c ≠ '\x22' := by
  rintro c hc rfl
  exact absurd (isStop_cases (h _ hc)).1 (by decide)

/-- A number written bare ends where the separator is. -/
theorem isShorthand_not_isStop (ok : Char → Bool) (h : isShorthand d cs = true) :
    ∀ c ∈ cs, isStop ok c = false := by
  intro c hc
  have hne := isShorthand_ne h hc
  exact not_isStop ⟨hne _ (by decide), hne _ (by decide), hne _ (by decide)⟩

/-- A character of a tag. -/
theorem mem_subtags {p : Char → Bool} (hp : ∀ c, p c = true → (isLowerLetter c || isDigit c) = true)
    {n : Nat} (h : subtags p n cs = true) :
    ∀ c ∈ cs, c = '-' ∨ (isLowerLetter c || isDigit c) = true := by
  induction cs generalizing p n with
  | nil => simp
  | cons c cs ih =>
    rw [subtags] at h
    split at h
    · rename_i hc
      rw [Bool.and_eq_true] at h
      rintro d (_ | ⟨_, hd⟩)
      · exact .inl hc
      · exact ih (fun _ => id) h.2 d hd
    · rw [Bool.and_eq_true, Bool.and_eq_true] at h
      rintro d (_ | ⟨_, hd⟩)
      · exact .inr (hp c h.1.1)
      · exact ih hp h.2 d hd

theorem LangTag.mem_value (tag : LangTag) :
    ∀ c ∈ tag.value.toList, c = '-' ∨ (isLowerLetter c || isDigit c) = true :=
  mem_subtags (fun c hc => by simp [hc]) tag.valid

theorem URIRefOf.ext_value {u v : URIRefOf ok} (h : u.value.toList = v.value.toList) : u = v := by
  cases u
  cases v
  simpa using String.toList_inj.mp h

theorem BNodeOf.ext_value {a b : BNodeOf ok} (h : a.value.toList = b.value.toList) : a = b := by
  cases a
  cases b
  simpa using String.toList_inj.mp h

theorem all_ok_not_isStop (h : cs.all ok = true) : ∀ c ∈ cs, isStop ok c = false := by
  intro c hc
  simp [isStop, all_eq_true.mp h c hc]

theorem LangTag.not_isStop (tag : LangTag) : ∀ c ∈ tag.value.toList, isStop ok c = false := by
  intro c hc
  have hmem := tag.mem_value c hc
  refine GoRdf.not_isStop ⟨?_, ?_, ?_⟩ <;> rintro rfl <;> exact absurd hmem (by decide)

/-- Nothing in the suffix of a literal is a separator. -/
theorem LiteralKind.n3_not_isStop (k : LiteralKind ok) : ∀ c ∈ k.n3, isStop ok c = false := by
  have hplain : ∀ c ∈ ['@', '-', 'l', 't', 'r', '^', '<', '>'], isStop ok c = false := by
    intro c hc
    refine GoRdf.not_isStop ⟨?_, ?_, ?_⟩ <;> rintro rfl <;> exact absurd hc (by decide)
  intro c hc
  cases k with
  | lang tag =>
    rcases mem_cons.mp hc with rfl | hc
    · exact hplain _ (by decide)
    · exact tag.not_isStop c hc
  | dirLang tag dir =>
    simp only [LiteralKind.n3, cons_append, mem_cons, mem_append] at hc
    rcases hc with rfl | (hc | hc) | hc
    · exact hplain _ (by decide)
    · exact tag.not_isStop c hc
    · exact hplain c (by simp at hc; simp [hc])
    · exact hplain c (by cases dir <;> simp [Direction.text] at hc <;> grind)
  | typed dt =>
    rw [LiteralKind.n3] at hc
    split at hc
    · cases hc
    · simp only [URIRefOf.n3, cons_append, mem_cons, mem_append] at hc
      rcases hc with rfl | rfl | rfl | hc | hc
      · exact hplain _ (by decide)
      · exact hplain _ (by decide)
      · exact hplain _ (by decide)
      · exact all_ok_not_isStop dt.valid c hc
      · exact hplain c (by simp at hc; simp [hc])

/-- No quote follows the form, so its end cannot be taken for a longer one. -/
theorem LiteralKind.n3_head_ne_quote (k : LiteralKind ok) {r : List Char}
    (hr : Stops (isStop ok) r) : ∀ c ∈ (k.n3 ++ r).head?, c ≠ '\x22' := by
  intro c hc
  cases k with
  | lang tag | dirLang tag dir =>
    cases hc
    decide
  | typed dt =>
    rw [LiteralKind.n3] at hc
    split at hc
    · exact Stops.ne_quote hr c hc
    · cases hc
      decide

theorem quoted_head (cs : List Char) : ∃ r, quoted cs = '\x22' :: r := by
  unfold quoted
  split
  · exact ⟨_, rfl⟩
  · exact ⟨_, rfl⟩

/-- A bare literal is typed, and its lexical form is a shorthand of its
    datatype. -/
theorem LiteralOf.bare_spec {l : LiteralOf ok} (h : l.bare = true) :
    ∃ dt hdt, l.kind = .typed dt hdt ∧ isShorthand dt.value l.lexical.toList = true := by
  rw [LiteralOf.bare] at h
  split at h
  · rename_i dt hdt hk
    exact ⟨dt, hdt, hk, h⟩
  · cases h

/-- A bare form never starts the text of a quoted one. -/
theorem LiteralOf.bare_ne_quoted {l : LiteralOf ok} (h : l.bare = true) (cs r₁ r₂ : List Char) :
    l.lexical.toList ++ r₁ ≠ quoted cs ++ r₂ := by
  intro heq
  obtain ⟨dt, -, -, hs⟩ := LiteralOf.bare_spec h
  obtain ⟨r, hq⟩ := quoted_head cs
  cases hl : l.lexical.toList with
  | nil => exact isShorthand_ne_nil hs hl
  | cons c ds =>
    rw [hl, hq, cons_append, cons_append, List.cons.injEq] at heq
    exact isShorthand_ne hs (hl ▸ mem_cons_self) '\x22' (by decide) heq.1

theorem shape_of_isTurtleDouble (h : isTurtleDouble cs = true) :
    shapeDatatype (skipDigits (skipSign cs)) = xsdDouble :=
  (isShorthand_datatype (d := xsdDouble) h).symm

theorem shape_of_isTurtleDecimal (h : isTurtleDecimal cs = true) :
    shapeDatatype (skipDigits (skipSign cs)) = xsdDecimal :=
  (isShorthand_datatype (d := xsdDecimal) h).symm

theorem shape_of_isTurtleInteger (h : isTurtleInteger cs = true) :
    shapeDatatype (skipDigits (skipSign cs)) = xsdInteger := by
  rw [skipDigits_eq_nil_of_allDigits h]
  rfl

/-- A shorthand is read by the production of its datatype: the shape of the text tells
    the productions apart. -/
theorem literalFromN3_shorthand {d : String} (h : isShorthand d cs = true) :
    literalFromN3 cs = (LiteralOf.ofTyped cs d.toList : Except DecodeError (LiteralOf ok)) := by
  have hshape := isShorthand_datatype h
  have hdouble : d ≠ xsdDouble → isTurtleDouble cs = false := fun hd =>
    Bool.eq_false_iff.mpr fun hs => hd (hshape.trans (shape_of_isTurtleDouble hs))
  have hdecimal : d ≠ xsdDecimal → isTurtleDecimal cs = false := fun hd =>
    Bool.eq_false_iff.mpr fun hs => hd (hshape.trans (shape_of_isTurtleDecimal hs))
  have hinteger : d ≠ xsdInteger → isTurtleInteger cs = false := fun hd =>
    Bool.eq_false_iff.mpr fun hs => hd (hshape.trans (shape_of_isTurtleInteger hs))
  rw [literalFromN3.eq_def]
  unfold isShorthand at h
  split_ifs at h with hi hd hc hb
  · have hint : isTurtleInteger cs = true := parseInt64_spec h
    simp [hi, hint, hdouble (by rw [hi]; decide), hdecimal (by rw [hi]; decide)]
  · simp [hd, h]
  · simp [hc, h, hdouble (by rw [hc]; decide)]
  · rw [Bool.or_eq_true, beq_iff_eq, beq_iff_eq] at h
    simp [hb, h, hdouble (by rw [hb]; decide), hdecimal (by rw [hb]; decide),
      hinteger (by rw [hb]; decide)]

/-- No number starts with a quote. -/
theorem not_number_of_quote (cs : List Char) :
    isTurtleDouble ('\x22' :: cs) = false ∧ isTurtleDecimal ('\x22' :: cs) = false ∧
      isTurtleInteger ('\x22' :: cs) = false := by
  have hdigits : skipDigits ('\x22' :: cs) = '\x22' :: cs := rfl
  refine ⟨?_, rfl, ?_⟩
  · simp [isTurtleDouble, skipSign, hdigits]
  · simp [isTurtleInteger, skipSign, allDigits, isDigit]

/-- A quoted form is read back, whatever kind of literal follows it. -/
theorem literalFromN3_quoted (cs suffix : List Char) (hsuffix : ∀ c ∈ suffix.head?, c ≠ '\x22') :
    literalFromN3 (quoted cs ++ suffix) =
      (literalSuffix cs suffix : Except DecodeError (LiteralOf ok)) := by
  obtain ⟨r, hquote⟩ := quoted_head cs
  obtain ⟨hdouble, hdecimal, hinteger⟩ := not_number_of_quote (r ++ suffix)
  have hbool : ¬ ('\x22' :: (r ++ suffix) = ['t', 'r', 'u', 'e'] ∨
      '\x22' :: (r ++ suffix) = ['f', 'a', 'l', 's', 'e']) := by simp
  rw [literalFromN3.eq_def]
  rw [← cons_append, ← hquote] at hdouble hdecimal hinteger hbool
  rw [hdouble, hdecimal, hinteger, if_neg Bool.false_ne_true, if_neg Bool.false_ne_true,
    if_neg Bool.false_ne_true, if_neg hbool]
  clear hdouble hdecimal hinteger hbool hquote
  unfold quoted
  split
  · have hclose := closeTripleQuote_escapeQuoteRuns 0 (by omega) cs suffix
    have hbody : (tripleQuote ++ escapeTripleQuotedLiteral cs ++ tripleQuote ++ suffix).drop 3 =
        escapeQuoteRuns 0 (cs.flatMap escapeLongChar) ++ (tripleQuote ++ suffix) := by
      simp [tripleQuote, escapeTripleQuotedLiteral]
    rw [if_pos (by simp [tripleQuote]), hbody, hclose]
    simp only [unescapeLiteral_escapeQuoteRuns]
  · -- A short form is not taken for a long one: after an empty form no quote may follow.
    have hshort : tripleQuote.isPrefixOf ('\x22' :: escapeLiteral cs ++ ['\x22'] ++ suffix) =
        false :=
      not_isPrefixOf_tripleQuote fun r => by
        simpa using short_ne_long cs [] suffix r hsuffix
    rw [hshort, if_neg Bool.false_ne_true]
    simp only [cons_append, append_assoc, nil_append, closeQuote_escapeLiteral,
      unescapeLiteral_escapeLiteral]

/-- A literal is read off its N3 form. -/
theorem literalFromN3_n3 (l : LiteralOf ok) : literalFromN3 l.n3 = .ok l := by
  rw [LiteralOf.n3]
  split
  · rename_i hbare
    obtain ⟨dt, named, hkind, hs⟩ := bare_spec hbare
    rw [literalFromN3_shorthand hs, ofTyped_eq l.lexical dt named, ← hkind]
  · have hhead := l.kind.n3_head_ne_quote (Stops.nil (isStop ok))
    rw [append_nil] at hhead
    rw [literalFromN3_quoted _ _ hhead, literalSuffix_n3]

/-- Reading the text back gives the literal, so two literals with one text are one. -/
theorem LiteralOf.n3_injective {l m : LiteralOf ok} (h : l.n3 = m.n3) : l = m := by
  have hread : (.ok l : Except DecodeError (LiteralOf ok)) = .ok m := by
    rw [← literalFromN3_n3 l, ← literalFromN3_n3 m, h]
  exact Except.ok.inj hread

/-- The N3 form of a literal is read back off the front of a text in which a stop
    follows it. -/
theorem LiteralOf.n3_append_inj (h₁ : Stops (isStop ok) r₁) (h₂ : Stops (isStop ok) r₂)
    {l m : LiteralOf ok} (h : l.n3 ++ r₁ = m.n3 ++ r₂) : l = m ∧ r₁ = r₂ := by
  suffices l.n3 = m.n3 ∧ r₁ = r₂ from ⟨n3_injective this.1, this.2⟩
  unfold LiteralOf.n3 at h ⊢
  split_ifs at h ⊢ with hl hm hm
  · obtain ⟨dt, -, -, hs⟩ := LiteralOf.bare_spec hl
    obtain ⟨dt', -, -, hs'⟩ := LiteralOf.bare_spec hm
    exact append_inj_of_stops (isShorthand_not_isStop ok hs) (isShorthand_not_isStop ok hs')
      h₁ h₂ h
  · rw [append_assoc] at h
    exact absurd h (LiteralOf.bare_ne_quoted hl _ _ _)
  · rw [append_assoc] at h
    exact absurd h.symm (LiteralOf.bare_ne_quoted hm _ _ _)
  · rw [append_assoc, append_assoc] at h
    rcases quoted_append_inj _ _ _ _ (l.kind.n3_head_ne_quote h₁) (m.kind.n3_head_ne_quote h₂)
      h with ⟨hlex, hrest⟩
    rcases append_inj_of_stops l.kind.n3_not_isStop m.kind.n3_not_isStop h₁ h₂ hrest with ⟨hk, hr⟩
    rw [hlex, hk]
    exact ⟨rfl, hr⟩

theorem escapeLiteral_of_plain (hn : cs.contains '\n' = false)
    (hplain : cs.any ['\x5c', '\x22', '\r', '\t'].contains = false) : escapeLiteral cs = cs := by
  induction cs with
  | nil => rfl
  | cons c cs ih =>
    simp only [contains_cons, Bool.or_eq_false_iff, beq_eq_false_iff_ne, ne_eq,
      any_cons, contains_nil] at hn hplain
    have hc : escapeChar c = [c] := by
      unfold escapeChar
      grind
    have hcs : escapeLiteral cs = cs := ih hn.2 (by simpa using hplain.2)
    rw [escapeLiteral, flatMap_cons, hc]
    exact congrArg (c :: ·) hcs

/-- The key writes the datatype as the text does, except for an empty one. -/
theorem LiteralKind.keySuffix_eq (k : LiteralKind ok)
    (hk : ∀ dt h, k = .typed dt h → dt.value ≠ "") :
    k.keySuffix = k.n3 := by
  cases k with
  | lang tag | dirLang tag dir => rfl
  | typed dt hdt =>
    rw [keySuffix, LiteralKind.n3]
    by_cases hstr : dt.value = xsdString
    · simp [hstr]
    · simp [hstr, hk dt hdt rfl, URIRefOf.n3]

/-- A literal with a shorthand has one of the four datatypes for which `literalKey`
    asks `N3`. -/
theorem isShorthand_mem (h : isShorthand d cs = true) :
    d ∈ [xsdInteger, xsdDouble, xsdDecimal, xsdBoolean] := by
  unfold isShorthand at h
  split_ifs at h <;> simp_all

/-- The second encoder writes what the first does, if it does not leave out a
    datatype. -/
theorem LiteralOf.literalKey_eq_of_named (l : LiteralOf ok)
    (hnamed : ∀ dt h, l.kind = .typed dt h → dt.value ≠ "") :
    l.literalKey = 'L' :: ':' :: l.n3 := by
  rw [literalKey]
  dsimp only
  split
  · rfl
  · rename_i hlong
    rw [Bool.not_eq_true, Bool.or_eq_false_iff] at hlong
    have hbare : l.bare = false := by
      by_contra hb
      obtain ⟨dt, hdt, hk, hs⟩ := LiteralOf.bare_spec (by simpa using hb)
      have hshort : l.kind.mayBeShort = true := by
        rw [hk]
        exact contains_iff_mem.mpr (isShorthand_mem hs)
      rw [hshort] at hlong
      exact absurd hlong.2.symm Bool.false_ne_true
    have htext : (if l.lexical.toList.any ['\x5c', '\x22', '\r', '\t'].contains = true then
        escapeLiteral l.lexical.toList else l.lexical.toList) = escapeLiteral l.lexical.toList := by
      split
      · rfl
      · rename_i hplain
        exact (escapeLiteral_of_plain hlong.1 (by simpa using hplain)).symm
    rw [htext, LiteralKind.keySuffix_eq _ hnamed, LiteralOf.n3, hbare, quoted, hlong.1]
    simp

/-- Over a checked class, the key of a literal is its N3 form. -/
theorem LiteralOf.literalKey_eq (hnul : ok '\x00' = false) (l : LiteralOf ok) :
    l.literalKey = 'L' :: ':' :: l.n3 :=
  l.literalKey_eq_of_named fun _ h _ => h hnul

end GoRdf
