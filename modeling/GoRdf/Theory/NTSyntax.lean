import Mathlib.Data.Nat.Digits.Lemmas
import Mathlib.Tactic.Cases
import GoRdf.Core.NQuads
import GoRdf.Theory.LiteralText

/-!
# Reading Back What the Serializer Writes

Each reader of `ntsyntax` against the text the serializer writes for it. The rules
have one shape: on that text followed by anything that can stand there, the reader
returns the value and leaves what followed.

## Theorems

* `readQuoted_escapeString`: A lexical form is read back.
* `readURI_serializeIRI`: An IRI is read back.
* `readBNode_label`: A label is read back, if the grammar has it.
* `readLiteral_serializeLiteral`: A literal is read back.
-/

namespace GoRdf

open List Option

variable {c : Char} {cs rest text : List Char} {n width : Nat}

/-! ## Escapes -/

theorem exists_of_map_ok {ε α β : Type} {f : α → β} {x : Except ε α} {b : β}
    (h : x.map f = .ok b) : ∃ a, x = .ok a ∧ f a = b := by
  cases x with
  | error e => exact absurd h (by simp [Except.map])
  | ok a => exact ⟨a, rfl, Except.ok.inj h⟩

theorem hexValue_hexDigit : ∀ d, d < 16 → hexValue (hexDigit d) = some d := by
  decide

theorem hexDigit_plain : ∀ d, d < 16 → isLetter (hexDigit d) || isDigit (hexDigit d) := by
  decide

/-- The digits from the most significant one on, behind what was read before them. -/
theorem foldlM_hexDigit (l : List Nat) (hl : ∀ d ∈ l, d < 16) (n : Nat) :
    (l.map hexDigit).foldlM (fun n c => (hexValue c).map fun d => 16 * n + d) n =
      some (n * 16 ^ l.length + Nat.ofDigits 16 l.reverse) := by
  induction l generalizing n with
  | nil => simp
  | cons d l ih =>
    have hd : d < 16 := hl d (by simp)
    have hrest := ih (fun e he => hl e (by simp [he])) (16 * n + d)
    simp only [map_cons, foldlM_cons, hexValue_hexDigit d hd, map_some,
      bind_eq_bind, bind_some, hrest, reverse_cons, Nat.ofDigits_append,
      Nat.ofDigits_singleton, length_reverse, length_cons, some.injEq]
    ring

/-- The digits of an escape, from the most significant one on. -/
def hexDigits (width n : Nat) : List Nat :=
  (Nat.digits 16 n ++ List.replicate (width - (Nat.digits 16 n).length) 0).reverse

theorem padHex_eq (width n : Nat) : padHex width n = (hexDigits width n).map hexDigit := by
  simp [padHex, hexDigits, hexDigit]

theorem hexDigits_lt (width n : Nat) : ∀ d ∈ hexDigits width n, d < 16 := by
  intro d hd
  simp only [hexDigits, mem_reverse, mem_append, mem_replicate] at hd
  rcases hd with hd | hd
  · exact Nat.digits_lt_base (by norm_num) hd
  · omega

theorem parseHex_padHex (width n : Nat) : parseHex (padHex width n) = some n := by
  rw [padHex_eq, parseHex, foldlM_hexDigit _ (hexDigits_lt width n)]
  simp [hexDigits, Nat.ofDigits_append, Nat.ofDigits_digits, Nat.ofDigits_replicate_zero]

theorem length_padHex (h : n < 16 ^ width) : (padHex width n).length = width := by
  have hle : (Nat.digits 16 n).length ≤ width := (Nat.digits_length_le_iff (by norm_num) n).mpr h
  simp only [padHex, length_append, length_replicate, length_map, length_reverse]
  omega

theorem runeOf_toNat (c : Char) : runeOf c.toNat = c := by
  have hvalid : c.toNat.isValidChar := c.valid
  rw [runeOf, if_pos hvalid, Char.ofNat_toNat]

/-- The padding keeps the width, so the reader takes these digits and no more. -/
theorem readHex_padHex (h : c.toNat < 16 ^ width) (rest : List Char) :
    readHex width (padHex width c.toNat ++ rest) = .ok (c, rest) := by
  have hlen : (padHex width c.toNat).length = width := length_padHex h
  have htake : (padHex width c.toNat ++ rest).take width = padHex width c.toNat := by
    rw [take_append_of_le_length hlen.ge, take_of_length_le hlen.le]
  have hdrop : (padHex width c.toNat ++ rest).drop width = rest := by
    rw [drop_append_of_le_length hlen.ge, drop_of_length_le hlen.le, nil_append]
  -- a character is no surrogate
  have hvalid : c.toNat.isValidChar := c.valid
  have hno : ¬(0xD800 ≤ c.toNat ∧ c.toNat ≤ 0xDFFF) := by
    rcases hvalid with h | h <;> omega
  rw [readHex, if_neg (by rw [length_append]; omega), htake, parseHex_padHex]
  dsimp only
  rw [if_neg hno, runeOf_toNat, hdrop]

theorem toNat_lt (c : Char) : c.toNat < 16 ^ 8 := by
  have hvalid : c.toNat.isValidChar := c.valid
  rcases hvalid with h | h <;> omega

/-- A character of an escape: its letter, or one of its digits. -/
theorem padHex_plain (h : c ∈ padHex width n) : isLetter c || isDigit c := by
  rw [padHex_eq, List.mem_map] at h
  obtain ⟨d, hd, rfl⟩ := h
  exact hexDigit_plain d (hexDigits_lt width n d hd)

/-- A hexadecimal digit does not end an IRI, so an escape is scanned as a whole. -/
theorem plain_of_alnum (h : (isLetter c || isDigit c) = true) :
    c ≠ '>' ∧ c ≠ '\x5c' ∧ ¬c.toNat ≤ 0x20 := by
  refine ⟨?_, ?_, ?_⟩
  · rintro rfl
    cases h
  · rintro rfl
    cases h
  · intro hle
    simp only [isLetter, isDigit, Bool.or_eq_true, Bool.and_eq_true, decide_eq_true_eq] at h
    rcases h with (⟨h, -⟩ | ⟨h, -⟩) | ⟨h, -⟩
    all_goals
      have hge := UInt32.le_iff_toNat_le.mp (Char.le_def.mp h)
      exact absurd (hge.trans hle) (by decide)

/-! ## Lexical forms -/

/-- The fast path is the slow path on a text that needs no escape. -/
theorem escapeString_eq (cs : List Char) : escapeString cs = cs.flatMap escapeStringChar := by
  rw [escapeString]
  split
  · rfl
  · rename_i h
    have hplain : ∀ c ∈ cs, escapeStringChar c = [c] := by
      intro c hc
      have hno : ¬_ := fun p => h (any_eq_true.mpr ⟨c, hc, p⟩)
      simp only [contains_cons, contains_nil, Bool.or_false, Bool.or_eq_true,
        beq_iff_eq, decide_eq_true_eq, not_or] at hno
      obtain ⟨⟨⟨h1, h2, h3, h4, h5⟩, hlow⟩, hhigh⟩ := hno
      rw [escapeStringChar, if_neg h1, if_neg h2, if_neg h3, if_neg h4, if_neg h5, if_neg hlow,
        if_neg hhigh]
    rw [flatMap_congr hplain]
    simp

theorem readQuoted_escape (h : readEscape cs = .ok (c, rest)) :
    readQuoted ('\x5c' :: cs) = (readQuoted rest).map fun r => (c :: r.1, r.2) := by
  rw [readQuoted, if_pos rfl]
  split <;> rename_i he <;> rw [h] at he <;> cases he
  rfl

theorem readQuoted_plain (hslash : c ≠ '\x5c') (hquote : c ≠ '\x22') (cs : List Char) :
    readQuoted (c :: cs) = (readQuoted cs).map fun r => (c :: r.1, r.2) := by
  rw [readQuoted, if_neg hslash, if_neg hquote]

theorem readEscape_u (cs : List Char) : readEscape ('u' :: cs) = readHex 4 cs :=
  rfl

theorem readEscape_U (cs : List Char) : readEscape ('U' :: cs) = readHex 8 cs :=
  rfl

theorem readIRIEscape_u (cs : List Char) : readIRIEscape ('u' :: cs) = readHex 4 cs :=
  rfl

theorem readIRIEscape_U (cs : List Char) : readIRIEscape ('U' :: cs) = readHex 8 cs :=
  rfl

/-- Whether it is escaped or not, one character is read back as itself. -/
theorem readQuoted_escapeStringChar (c : Char) (rest : List Char) :
    readQuoted (escapeStringChar c ++ rest) = (readQuoted rest).map fun r => (c :: r.1, r.2) := by
  unfold escapeStringChar
  split_ifs with hslash hquote hn hr ht hlow hhigh
  · subst hslash
    exact readQuoted_escape rfl
  · subst hquote
    exact readQuoted_escape rfl
  · exact hn ▸ readQuoted_escape rfl
  · exact hr ▸ readQuoted_escape rfl
  · exact ht ▸ readQuoted_escape rfl
  · have hlt : c.toNat < 16 ^ 4 := by omega
    exact readQuoted_escape ((readEscape_u _).trans (readHex_padHex hlt rest))
  · exact readQuoted_escape ((readEscape_U _).trans (readHex_padHex (toNat_lt c) rest))
  · exact readQuoted_plain hslash hquote rest

/-- The first bare quote is the closing one, since those inside are escaped. -/
theorem readQuoted_escapeString (cs rest : List Char) :
    readQuoted (escapeString cs ++ '\x22' :: rest) = .ok (cs, rest) := by
  rw [escapeString_eq]
  induction cs with
  | nil =>
    rw [flatMap_nil, nil_append, readQuoted]
    rfl
  | cons c cs ih =>
    rw [flatMap_cons, append_assoc, readQuoted_escapeStringChar, ih]
    rfl

/-! ## IRIs -/

/-- The check for whether there is anything to escape only saves work. -/
theorem escapeIRI_eq (cs : List Char) : escapeIRI cs = cs.flatMap escapeIRIChar := by
  rw [escapeIRI]
  split
  · rfl
  · rename_i h
    have hplain : ∀ c ∈ cs, escapeIRIChar c = [c] := by
      intro c hc
      have hno : ¬_ := fun p => h (any_eq_true.mpr ⟨c, hc, p⟩)
      simp only [Bool.or_eq_true, beq_iff_eq, decide_eq_true_eq, not_or] at hno
      obtain ⟨⟨⟨hlow, hhigh⟩, hopen⟩, hclose⟩ := hno
      rw [escapeIRIChar, if_neg (by simp [hlow, hopen, hclose]), if_neg hhigh]
    rw [flatMap_congr hplain]
    simp

/-- The characters `scanIRI` passes over one by one. -/
theorem scanIRI_append (w rest : List Char) (hw : ∀ c ∈ w, c ≠ '>' ∧ c ≠ '\x5c' ∧ ¬c.toNat ≤ 0x20) :
    scanIRI (w ++ rest) = (scanIRI rest).map fun r => (w ++ r.1, r.2) := by
  induction w with
  | nil => cases h : scanIRI rest <;> simp [h, Except.map]
  | cons c w ih =>
    obtain ⟨hclose, hslash, hlow⟩ := hw c (by simp)
    rw [cons_append, scanIRI.eq_def]
    dsimp only
    rw [if_neg hclose, if_neg hslash, if_neg hlow, ih fun d hd => hw d (by simp [hd])]
    cases scanIRI rest <;> rfl

theorem scanIRI_escape (d : Char) (cs : List Char) :
    scanIRI ('\x5c' :: d :: cs) = (scanIRI cs).map fun r => ('\x5c' :: d :: r.1, r.2) := by
  rw [scanIRI, if_neg (by decide), if_pos rfl]

theorem ne_of_iriChar (h : iriChar c = true) :
    ¬c.toNat ≤ 0x20 ∧ c ≠ '<' ∧ c ≠ '>' ∧ c ≠ '\x5c' := by
  simp only [iriChar, Bool.and_eq_true, Bool.not_eq_true', decide_eq_false_iff_not,
    contains_cons, Bool.or_eq_false_iff, beq_eq_false_iff_ne] at h
  exact ⟨h.1, h.2.1, h.2.2.1, h.2.2.2.2.2.2.2.1⟩

/-- A character of an IRI is written as it is, or by its code point in eight digits. -/
theorem escapeIRIChar_of_iriChar (h : iriChar c = true) :
    escapeIRIChar c = if 0xFFFF < c.toNat then '\x5c' :: 'U' :: padHex 8 c.toNat else [c] := by
  obtain ⟨hlow, hopen, hclose, -⟩ := ne_of_iriChar h
  have hno : ¬(c.toNat < 0x20 ∨ c = '<' ∨ c = '>') := by
    rintro (h | h | h)
    · omega
    · exact hopen h
    · exact hclose h
  rw [escapeIRIChar, if_neg hno]

/-- What an IRI reference has to be written without. -/
def unescapable (c : Char) : Bool :=
  c == '\x5c' || c == ' '

theorem unescapable_of_iriChar (h : iriChar c = true) : unescapable c = false := by
  obtain ⟨hlow, -, -, hslash⟩ := ne_of_iriChar h
  have hspace : c ≠ ' ' := by
    rintro rfl
    exact hlow le_rfl
  simp [unescapable, hslash, hspace]

/-- The scan copies escapes unread: they are decoded once the end is found. -/
theorem scanIRI_escapeIRIChar (h : unescapable c = false) (rest : List Char) :
    scanIRI (escapeIRIChar c ++ rest) =
      (scanIRI rest).map fun r => (escapeIRIChar c ++ r.1, r.2) := by
  have hescape : ∀ d width, scanIRI ('\x5c' :: d :: padHex width c.toNat ++ rest) =
      (scanIRI rest).map fun r => ('\x5c' :: d :: padHex width c.toNat ++ r.1, r.2) := by
    intro d width
    rw [cons_append, cons_append, scanIRI_escape, scanIRI_append]
    · cases scanIRI rest <;> rfl
    · exact fun e he => plain_of_alnum (padHex_plain he)
  unfold escapeIRIChar
  split_ifs with hlow hhigh
  · exact hescape 'u' 4
  · exact hescape 'U' 8
  · simp only [unescapable, Bool.or_eq_false_iff, beq_eq_false_iff_ne] at h
    have hspace : c.toNat ≠ 0x20 := fun hc => h.2 (Char.toNat_inj.mp hc)
    refine scanIRI_append [c] rest ?_
    simp only [mem_singleton, forall_eq]
    exact ⟨fun hc => hlow (.inr (.inr hc)), h.1, by omega⟩

theorem scanIRI_escaped (h : ∀ c ∈ cs, unescapable c = false) (rest : List Char) :
    scanIRI (cs.flatMap escapeIRIChar ++ rest) =
      (scanIRI rest).map fun r => (cs.flatMap escapeIRIChar ++ r.1, r.2) := by
  induction cs with
  | nil => cases h : scanIRI rest <;> simp [h, Except.map]
  | cons c cs ih =>
    rw [flatMap_cons, append_assoc, scanIRI_escapeIRIChar (h c (by simp)),
      ih fun d hd => h d (by simp [hd])]
    cases scanIRI rest <;> simp [Except.map]

theorem unescapeLoop_escape (h : readIRIEscape cs = .ok (c, rest)) :
    unescapeLoop ('\x5c' :: cs) = (unescapeLoop rest).map fun r => c :: r := by
  have hne : cs ≠ [] := by
    rintro rfl
    exact absurd h (by simp [readIRIEscape])
  rw [unescapeLoop, if_pos ⟨rfl, hne⟩]
  split <;> rename_i he <;> rw [h] at he <;> cases he
  rfl

theorem unescapeLoop_plain (h : c ≠ '\x5c') (cs : List Char) :
    unescapeLoop (c :: cs) = (unescapeLoop cs).map fun r => c :: r := by
  rw [unescapeLoop, if_neg fun hc => h hc.1]

/-- The fast path of `UnescapeIRI` is its loop on a text without a backslash. -/
theorem unescapeIRI_eq (cs : List Char) : unescapeIRI cs = unescapeLoop cs := by
  rw [unescapeIRI]
  split
  · rfl
  · rename_i h
    induction cs with
    | nil => rw [unescapeLoop]
    | cons c cs ih =>
      rw [contains_cons, Bool.or_eq_true, not_or, beq_iff_eq] at h
      rw [unescapeLoop_plain (fun hc => h.1 hc.symm), ← ih h.2]
      rfl

theorem unescapeLoop_escapeIRIChar (h : c ≠ '\x5c') (rest : List Char) :
    unescapeLoop (escapeIRIChar c ++ rest) = (unescapeLoop rest).map fun r => c :: r := by
  unfold escapeIRIChar
  split_ifs with hlow hhigh
  · have hlt : c.toNat < 16 ^ 4 := by
      rcases hlow with hlow | rfl | rfl
      · omega
      · decide
      · decide
    exact unescapeLoop_escape ((readIRIEscape_u _).trans (readHex_padHex hlt rest))
  · exact unescapeLoop_escape ((readIRIEscape_U _).trans (readHex_padHex (toNat_lt c) rest))
  · exact unescapeLoop_plain h rest

/-- What is escaped on writing is decoded again, up to what no escape is made for. -/
theorem unescapeLoop_escaped (h : ∀ c ∈ cs, unescapable c = false) (rest : List Char) :
    unescapeLoop (cs.flatMap escapeIRIChar ++ rest) = (unescapeLoop rest).map (cs ++ ·) := by
  induction cs with
  | nil => cases h : unescapeLoop rest <;> simp [h, Except.map]
  | cons c cs ih =>
    have hslash : c ≠ '\x5c' := by
      rintro rfl
      cases h '\x5c' (by simp)
    rw [flatMap_cons, append_assoc, unescapeLoop_escapeIRIChar hslash,
      ih fun d hd => h d (by simp [hd])]
    cases unescapeLoop rest <;> rfl

theorem scanIRI_close (rest : List Char) : scanIRI ('>' :: rest) = .ok ([], rest) := by
  rw [scanIRI.eq_def]
  rfl

theorem readIRI_eq_ok :
    readIRI ('<' :: text) = .ok (cs, rest) ↔
      ∃ iri, scanIRI text = .ok (iri, rest) ∧ unescapeLoop iri = .ok cs := by
  rw [readIRI, expectChar, if_pos rfl]
  simp only [bind, Except.bind, unescapeIRI_eq, pure, Except.pure]
  cases scanIRI text with
  | error e => simp
  | ok r => cases hloop : unescapeLoop r.1 <;> simp [Prod.ext_iff, hloop, and_comm]

/-- The round trip of an IRI that holds nothing `unescapable`. -/
theorem readIRI_escapeIRI (h : ∀ c ∈ cs, unescapable c = false) (rest : List Char) :
    readIRI ('<' :: escapeIRI cs ++ '>' :: rest) = .ok (cs, rest) := by
  have hscan := scanIRI_escaped h ('>' :: rest)
  have hloop := unescapeLoop_escaped h []
  rw [scanIRI_close, ← escapeIRI_eq, Except.map, append_nil] at hscan
  rw [append_nil, unescapeLoop, ← escapeIRI_eq, Except.map, append_nil] at hloop
  exact readIRI_eq_ok.mpr ⟨_, hscan, hloop⟩

theorem firstInvalid_eq_none (offset : Nat) (cs : List Char) :
    firstInvalid offset cs = none ↔ cs.all iriChar = true := by
  induction cs generalizing offset with
  | nil => simp [firstInvalid]
  | cons c cs ih =>
    rw [firstInvalid, all_cons]
    split
    · rename_i hc
      simp [hc, ih]
    · rename_i hc
      simp [hc]

/-- What `IRI` accepts, and what it writes then. -/
theorem serializeIRI_eq_ok {iri : String} :
    serializeIRI iri = .ok text ↔
      iri.toList.all iriChar = true ∧ isAbsoluteIRI iri.toList = true ∧
        text = '<' :: escapeIRI iri.toList ++ ['>'] := by
  rw [serializeIRI]
  split
  · rename_i c offset h
    have hno : ¬iri.toList.all iriChar = true := by
      rw [← firstInvalid_eq_none 0, h]
      simp
    simp [hno]
  · rename_i h
    rw [firstInvalid_eq_none] at h
    split
    · rename_i habs
      simp [h, habs, eq_comm]
    · rename_i habs
      simp [habs]

theorem absoluteURI_value {u : URIRefOf anyChar} (hvalid : u.value.toList.all iriChar = true)
    (habs : isAbsoluteIRI u.value.toList = true) : absoluteURI u.value.toList = .ok u := by
  rw [absoluteURI, if_pos habs, if_pos]
  · simp
  · simpa [isValidIRI] using hvalid

theorem readURI_serializeIRI {u : URIRefOf anyChar} (h : serializeIRI u.value = .ok text)
    (place : ReadError → ReadError) (rest : List Char) :
    readURI place (text ++ rest) = .ok (u, rest) := by
  obtain ⟨hvalid, habs, rfl⟩ := serializeIRI_eq_ok.mp h
  have hread := readIRI_escapeIRI (fun c hc => unescapable_of_iriChar (all_eq_true.mp hvalid c hc))
    rest
  rw [readURI, append_assoc, singleton_append, hread]
  simp only [Except.mapError, bind, Except.bind, absoluteURI_value hvalid habs, pure, Except.pure]

theorem isLetter_of_absolute (h : isAbsoluteIRI cs = true) :
    ∃ c ds, cs = c :: ds ∧ isLetter c = true := by
  cases cs with
  | nil => cases h
  | cons c ds =>
    refine ⟨c, ds, rfl, ?_⟩
    rw [isAbsoluteIRI, Bool.and_eq_true, takeWhile_cons] at h
    by_cases hc : (c != ':') = true
    · rw [if_pos hc] at h
      exact (Bool.and_eq_true_iff.mp h.2).1
    · rw [if_neg hc] at h
      exact absurd h.2 (by simp)

theorem toNat_le_of_isLetter (h : isLetter c = true) : c.toNat ≤ 0x7A := by
  simp only [isLetter, Bool.or_eq_true, Bool.and_eq_true, decide_eq_true_eq] at h
  rcases h with ⟨-, h⟩ | ⟨-, h⟩
  · exact UInt32.le_iff_toNat_le.mp (Char.le_def.mp h)
  · exact (UInt32.le_iff_toNat_le.mp (Char.le_def.mp h)).trans (by decide)

/-- What `IRI` writes starts with the first letter of the scheme. -/
theorem serializeIRI_head {iri : String} (h : serializeIRI iri = .ok text) :
    ∃ c ds, text = '<' :: c :: ds ∧ isLetter c = true := by
  obtain ⟨hvalid, habs, rfl⟩ := serializeIRI_eq_ok.mp h
  obtain ⟨c, ds, hcs, hc⟩ := isLetter_of_absolute habs
  rw [hcs, all_cons, Bool.and_eq_true] at hvalid
  have hlow : ¬0xFFFF < c.toNat := by
    have := toNat_le_of_isLetter hc
    omega
  refine ⟨c, ds.flatMap escapeIRIChar ++ ['>'], ?_, hc⟩
  rw [hcs, escapeIRI_eq, flatMap_cons, escapeIRIChar_of_iriChar hvalid.1, if_neg hlow]
  rfl

/-! ## Blank nodes -/

/-- `BLANK_NODE_LABEL` of the grammar, behind its `_:`. -/
def validLabel : List Char → Bool
  | [] => false
  | c :: cs =>
    (isPNCharsU c || isDigit c) && (cs.all fun c => isPNChar c || c == '.') &&
      (c :: cs).getLast? != some '.'

theorem rdropWhile_dots (h : cs.getLast? ≠ some '.') : cs.rdropWhile (· == '.') = cs := by
  rw [rdropWhile_eq_self_iff]
  intro hne hdot
  rw [getLast?_eq_getLast_of_ne_nil hne] at h
  exact h (congrArg some (beq_iff_eq.mp hdot))

/-- A label may have dots inside but not at its end, so nothing is given back. -/
theorem readBNode_label {label : List Char} (h : validLabel label = true)
    (scope : String → BNodeOf anyChar) (rest : List Char) :
    readBNode scope (label ++ ' ' :: rest) = .ok (scope (String.ofList label), ' ' :: rest) := by
  cases label with
  | nil => cases h
  | cons c cs =>
    rw [validLabel, Bool.and_eq_true, Bool.and_eq_true, bne_iff_ne] at h
    obtain ⟨⟨hfirst, hrest⟩, hlast⟩ := h
    have htake : (cs ++ ' ' :: rest).takeWhile (fun c => isPNChar c || c == '.') = cs := by
      rw [takeWhile_append_of_pos (all_eq_true.mp hrest), takeWhile_cons_of_neg, append_nil]
      decide
    simp only [cons_append, readBNode, if_pos hfirst, htake, rdropWhile_dots hlast,
      reduceCtorEq, if_false]
    rw [← cons_append, drop_left]

/-- A label the parser reads is one of the grammar. -/
theorem validLabel_of_readBNode {scope : String → BNodeOf anyChar} {b : BNodeOf anyChar}
    (h : readBNode scope cs = .ok (b, rest)) :
    ∃ label, validLabel label = true ∧ b = scope (String.ofList label) := by
  cases cs with
  | nil => exact absurd h (by simp [readBNode])
  | cons c cs =>
    simp only [readBNode] at h
    split_ifs at h with hfirst hne
    rw [Except.ok.injEq, Prod.mk.injEq] at h
    refine ⟨_, ?_, h.1.symm⟩
    -- what is left after the dots is a part of the run, from its first character on
    generalize hrun : (c :: cs.takeWhile fun c => isPNChar c || c == '.') = run at hne
    have hprefix := rdropWhile_prefix (· == '.') run
    have hlast := rdropWhile_last_not (· == '.') run hne
    generalize run.rdropWhile (· == '.') = label at hne hprefix hlast
    cases label with
    | nil => exact absurd rfl hne
    | cons d ds =>
      rw [← hrun, cons_prefix_cons] at hprefix
      obtain ⟨rfl, hds⟩ := hprefix
      rw [validLabel, Bool.and_eq_true, Bool.and_eq_true, bne_iff_ne]
      refine ⟨⟨hfirst, ?_⟩, ?_⟩
      · exact all_eq_true.mpr fun e he =>
          mem_takeWhile_imp (p := fun c => isPNChar c || c == '.') (hds.subset he)
      · rw [getLast?_eq_getLast_of_ne_nil hne]
        intro hdot
        exact hlast (beq_iff_eq.mpr (some.inj hdot))

/-! ## Language tags -/

theorem isLetter_of_isLowerLetter (h : isLowerLetter c = true) : isLetter c = true := by
  rw [isLetter, Bool.or_eq_true]
  exact .inl h

/-- The tag from the middle of a subtag on, as `isValidLangTag` splits it. -/
theorem splitOn_subtags {p : Char → Bool} (h : subtags p n cs = true) (hn : n ≤ 8) :
    ∃ part parts, cs.splitOn '-' = part :: parts ∧ part.all p = true ∧
      0 < n + part.length ∧ n + part.length ≤ 8 ∧ parts.all (isValidSubtag false) = true := by
  induction cs generalizing p n with
  | nil =>
    rw [subtags] at h
    exact ⟨[], [], by simp, rfl, by simpa using h, by simpa using hn, rfl⟩
  | cons c cs ih =>
    rw [subtags] at h
    rw [List.splitOn, splitOnP_cons_eq_if_modifyHead, ← List.splitOn]
    -- At a hyphen the subtag so far is complete, and a new one starts with any number of characters
    -- to go.
    split at h
    · rename_i hc
      rw [Bool.and_eq_true] at h
      obtain ⟨part, parts, hsplit, hall, hpos, hle, hparts⟩ := ih h.2 (Nat.zero_le 8)
      have hpart : isValidSubtag false part = true := by
        rw [isValidSubtag, Bool.and_eq_true, Bool.and_eq_true, decide_eq_true_eq, decide_eq_true_eq]
        refine ⟨⟨by omega, by omega⟩, all_eq_true.mpr fun d hd => ?_⟩
        rcases Bool.or_eq_true _ _ ▸ all_eq_true.mp hall d hd with hd | hd
        · simp [isLetter_of_isLowerLetter hd]
        · simp [hd]
      refine ⟨[], part :: parts, ?_, rfl, by simpa using h.1, by simpa using hn, ?_⟩
      · rw [if_pos (by simp [hc]), hsplit]
      · rw [all_cons, hpart, hparts]
        rfl
    · rename_i hc
      rw [Bool.and_eq_true, Bool.and_eq_true, decide_eq_true_eq] at h
      obtain ⟨part, parts, hsplit, hall, hpos, hle, hparts⟩ := ih h.2 h.1.2
      refine ⟨c :: part, parts, ?_, ?_, ?_, ?_, hparts⟩
      · rw [if_neg (by simp [hc]), hsplit, modifyHead_cons]
      · rw [all_cons, h.1.1, hall]
        rfl
      · simp
      · rw [length_cons]
        omega

theorem isValidLangTag_value (tag : LangTag) : isValidLangTag tag.value.toList = true := by
  obtain ⟨part, parts, hsplit, hall, hpos, hle, hparts⟩ := splitOn_subtags tag.valid (Nat.zero_le 8)
  rw [isValidLangTag, hsplit]
  dsimp only
  rw [hparts, Bool.and_true, isValidSubtag, Bool.and_eq_true, Bool.and_eq_true, decide_eq_true_eq,
    decide_eq_true_eq]
  refine ⟨⟨by omega, by omega⟩, all_eq_true.mpr fun d hd => ?_⟩
  simp [isLetter_of_isLowerLetter (all_eq_true.mp hall d hd)]

theorem mem_tag {tag : LangTag} (h : c ∈ tag.value.toList) :
    c = '-' ∨ (isLetter c || isDigit c) = true := by
  refine (tag.mem_value c h).imp_right fun hc => ?_
  rcases Bool.or_eq_true_iff.mp hc with hc | hc
  · simp [isLetter_of_isLowerLetter hc]
  · simp [hc]

/-- What `@` introduces: the tag, and the direction behind two hyphens. -/
def tagText (tag : LangTag) : Option Direction → List Char
  | none => tag.value.toList
  | some dir => tag.value.toList ++ '-' :: '-' :: dir.text

theorem not_endsTag (h : c = '-' ∨ (isLetter c || isDigit c) = true) : endsTag c = false := by
  rw [endsTag, Bool.or_eq_false_iff, Bool.or_eq_false_iff]
  simp only [beq_eq_false_iff_ne]
  refine ⟨⟨?_, ?_⟩, ?_⟩
  all_goals
    rintro rfl
    exact nomatch h

theorem mem_tagText {tag : LangTag} {dir : Option Direction} (h : c ∈ tagText tag dir) :
    c = '-' ∨ (isLetter c || isDigit c) = true := by
  cases dir with
  | none => exact mem_tag h
  | some dir =>
    simp only [tagText, mem_append, mem_cons] at h
    rcases h with h | h | h | h
    · exact mem_tag h
    · exact .inl h
    · exact .inl h
    · have hall : dir.text.all (fun c => isLetter c || isDigit c) = true := by
        cases dir <;> decide
      exact .inr (all_eq_true.mp hall c h)

/-- The kind of a literal with a tag. -/
def tagKind (tag : LangTag) : Option Direction → LiteralKind anyChar
  | none => .lang tag
  | some dir => .dirLang tag dir

theorem tagText_head (tag : LangTag) (dir : Option Direction) :
    ∃ c ds, tagText tag dir = c :: ds ∧ isLetter c = true := by
  obtain ⟨c, ds, hcs, hc, -⟩ := subtags_zero_cons tag.valid
  have hvalid := tag.valid
  rw [hcs, subtags, if_neg hc, Bool.and_eq_true, Bool.and_eq_true] at hvalid
  cases dir with
  | none => exact ⟨c, ds, hcs, isLetter_of_isLowerLetter hvalid.1.1⟩
  | some dir =>
    refine ⟨c, ds ++ '-' :: '-' :: dir.text, ?_, isLetter_of_isLowerLetter hvalid.1.1⟩
    rw [tagText, hcs, cons_append]

/-- The tag is read up to the blank; the direction is what follows two hyphens. -/
theorem readTag_tagText (tag : LangTag) (dir : Option Direction) (rest : List Char) :
    readTag (tagText tag dir ++ ' ' :: rest) = .ok (tagKind tag dir, ' ' :: rest) := by
  have hpos : ∀ c ∈ tagText tag dir, (!endsTag c) = true := by
    intro c hc
    simp [not_endsTag (mem_tagText hc)]
  have htake : (tagText tag dir ++ ' ' :: rest).takeWhile (fun c => !endsTag c) =
      tagText tag dir := by
    rw [takeWhile_append_of_pos hpos, takeWhile_cons_of_neg (by decide), append_nil]
  have hdrop : (tagText tag dir ++ ' ' :: rest).dropWhile (fun c => !endsTag c) =
      ' ' :: rest := by
    rw [dropWhile_append_of_pos hpos, dropWhile_cons_of_neg (by decide)]
  have hsplit := splitHyphens_subtags tag.valid
  obtain ⟨c, ds, hcs, hc⟩ := tagText_head tag dir
  have hcons : tagText tag dir ++ ' ' :: rest = c :: (ds ++ ' ' :: rest) := by
    rw [hcs, cons_append]
  rw [hcons] at htake hdrop ⊢
  simp only [readTag, htake, hdrop, hc, Bool.not_true, Bool.false_eq_true, if_false]
  cases dir with
  | none =>
    simp [tagText, hsplit.1, isValidLangTag_value, taggedKind, withLang_value, tagKind]
  | some dir =>
    simp [tagText, hsplit.2, isValidLangTag_value, taggedKind, withLang_value, withDir_text,
      tagKind]

/-! ## Literals -/

/-- The round trip of a literal. A language string without its tag is written, but refused by
    the reader. -/
theorem readLiteral_serializeLiteral {l : LiteralOf anyChar} (h : serializeLiteral l = .ok text)
    (hl : l.kind.lacksTag = false) (rest : List Char) :
    ∃ body, text = '\x22' :: body ∧ readLiteral (body ++ ' ' :: rest) = .ok (l, ' ' :: rest) := by
  obtain ⟨lexical, kind⟩ := l
  -- the quoted part is the same for all kinds, so the suffix is what is left
  have hread : ∀ suffix, readKind (suffix ++ ' ' :: rest) = .ok (kind, ' ' :: rest) →
      kind.lacksTag = false →
      readLiteral (escapeString lexical.toList ++ '\x22' :: suffix ++ ' ' :: rest) =
        .ok (⟨lexical, kind⟩, ' ' :: rest) := by
    intro suffix hsuffix htag
    rw [readLiteral, append_assoc, cons_append, readQuoted_escapeString]
    simp [bind, Except.bind, pure, Except.pure, hsuffix, htag]
  cases kind with
  | typed dt named =>
    simp only [serializeLiteral] at h
    split_ifs at h with hplain
    · rw [Except.ok.injEq] at h
      refine ⟨_, h.symm, ?_⟩
      have hdt : LiteralKind.typed dt named = plainKind := by
        obtain ⟨value, valid⟩ := dt
        obtain rfl : value = xsdString := hplain
        rfl
      exact hread [] (by rw [hdt]; rfl) hl
    · split at h
      · rename_i iri hiri
        rw [Except.ok.injEq] at h
        refine ⟨_, h.symm, ?_⟩
        have hkind : readKind ('^' :: '^' :: iri ++ ' ' :: rest) =
            .ok (.typed dt named, ' ' :: rest) := by
          rw [cons_append, cons_append, readKind, readURI_serializeIRI hiri]
          rfl
        have := hread _ hkind hl
        simpa using this
      · cases h
  | lang tag =>
    simp only [serializeLiteral, Except.ok.injEq] at h
    refine ⟨_, h.symm, ?_⟩
    have := hread ('@' :: tagText tag none) (readTag_tagText tag none rest) rfl
    simpa [tagText] using this
  | dirLang tag dir =>
    simp only [serializeLiteral, Except.ok.injEq] at h
    refine ⟨_, h.symm, ?_⟩
    have := hread ('@' :: tagText tag (some dir)) (readTag_tagText tag (some dir) rest) rfl
    simpa [tagText] using this

end GoRdf
