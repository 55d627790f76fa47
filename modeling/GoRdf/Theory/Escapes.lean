import GoRdf.Theory.NTSyntax

/-!
# Escapes

What `ReadLiteral` and `UnescapeIRI` make of numeric escapes, and which texts `ReadIRI` gives
back after `EscapeIRI`. An escape stands for the character with that code point. The readers
refuse surrogates, but not the numbers above all code points, which eight digits can write.

`EscapeIRI` leaves a backslash as it is. Whatever it starts is then read as an escape, so that
the text gets shorter.

## Main definitions

* `DenotesEscape`: What the digits of an escape stand for.
* `ReadsEscape`: The readers accept an escape for what it stands for.

## Theorems

* `readHex_denotes_iff`: When the digits of an escape are read as what they stand for.
* `readIRI_escapeIRI_iff`: The texts that are read back as IRIs.
-/

namespace GoRdf

open List

variable {c : Char} {cs ds out rest text : List Char} {m n width : Nat}

/-! ## Numbers -/

theorem hexValue_lt (h : hexValue c = some n) : n < 16 := by
  simp only [hexValue, Char.le_def, UInt32.le_iff_toNat_le] at h
  split_ifs at h with h1 h2 h3
  all_goals
    cases h
    simp at *
    omega

/-- No digit is a backslash, so one escape ends before the next one starts. -/
theorem foldlM_hexValue
    (h : ds.foldlM (fun n c => (hexValue c).map fun d => 16 * n + d) m = some n) :
    '\x5c' ∉ ds ∧ n < (m + 1) * 16 ^ ds.length := by
  induction ds generalizing m with
  | nil =>
    cases h
    simp
  | cons d ds ih =>
    cases hd : hexValue d with
    | none => simp [hd] at h
    | some v =>
      simp only [foldlM_cons, hd, Option.map_some, Option.bind_eq_bind, Option.bind_some] at h
      obtain ⟨hmem, hlt⟩ := ih h
      have hslash : '\x5c' ≠ d := by
        rintro rfl
        cases hd
      refine ⟨by simp [hslash, hmem], hlt.trans_le ?_⟩
      have hv := hexValue_lt hd
      rw [length_cons, pow_succ', ← mul_assoc]
      exact Nat.mul_le_mul_right _ (by omega)

/-- What the digits of an escape stand for, and what follows them. -/
def DenotesEscape (width : Nat) (text : List Char) (c : Char) (rest : List Char) : Prop :=
  ∃ ds, ds.length = width ∧ text = ds ++ rest ∧ parseHex ds = some c.toNat

/-- What is accepted: as many digits as asked for, and no surrogate. Numbers past the last
    character are not refused. -/
theorem readHex_eq_ok :
    readHex width text = .ok (c, rest) ↔
      ∃ ds n, ds.length = width ∧ text = ds ++ rest ∧ parseHex ds = some n ∧
        ¬(0xD800 ≤ n ∧ n ≤ 0xDFFF) ∧ c = runeOf n := by
  constructor
  · intro h
    unfold readHex at h
    split_ifs at h with hlen
    split at h
    · cases h
    · next n hn =>
      split_ifs at h with hsurrogate
      obtain ⟨rfl, rfl⟩ := Prod.mk.inj (Except.ok.inj h)
      exact ⟨text.take width, n, by rw [length_take]; omega,
        (take_append_drop width text).symm, hn, hsurrogate, rfl⟩
  · rintro ⟨ds, n, rfl, rfl, hn, hsurrogate, rfl⟩
    rw [readHex, if_neg (by rw [length_append]; omega), take_left, hn]
    dsimp only
    rw [if_neg hsurrogate, drop_left]

theorem runeOf_of_gt (h : 0x10FFFF < n) : runeOf n = '�' := by
  refine if_neg fun hvalid => ?_
  rcases hvalid with hvalid | hvalid <;> omega

theorem toNat_runeOf (hle : n ≤ 0x10FFFF) (hsurrogate : ¬(0xD800 ≤ n ∧ n ≤ 0xDFFF)) :
    (runeOf n).toNat = n := by
  have hvalid : n.isValidChar := by
    by_cases h : n < 0xD800
    · exact .inl h
    · exact .inr (by omega)
  rw [runeOf, if_pos hvalid, Char.ofNat, dif_pos hvalid]
  rfl

/-- The escape stands for its character unless the number is past the last one, which is then
    read as U+FFFD. -/
theorem readHex_denotes_iff :
    (∀ c rest, readHex width text = .ok (c, rest) ↔ DenotesEscape width text c rest) ↔
      ∀ n, width ≤ text.length → parseHex (text.take width) = some n → n ≤ 0x10FFFF := by
  constructor
  · intro h n hlen hn
    by_contra hgt
    -- The number is read as the replacement character, which has another one.
    have hread : readHex width text = .ok (runeOf n, text.drop width) := readHex_eq_ok.mpr
      ⟨text.take width, n, by rw [length_take]; omega,
        (take_append_drop width text).symm, hn, by omega, rfl⟩
    obtain ⟨ds, rfl, htext, hds⟩ := (h _ _).mp hread
    rw [htext, take_left, hds, runeOf_of_gt (by omega)] at hn
    cases hn
    exact hgt (by decide)
  · intro h c rest
    rw [readHex_eq_ok]
    constructor
    · rintro ⟨ds, n, rfl, rfl, hn, hsurrogate, rfl⟩
      have hle := h n (by simp) (by rw [take_left, hn])
      exact ⟨ds, rfl, rfl, by rw [hn, toNat_runeOf hle hsurrogate]⟩
    · rintro ⟨ds, hlen, htext, hn⟩
      have hvalid : c.toNat.isValidChar := c.valid
      refine ⟨ds, c.toNat, hlen, htext, hn, ?_, (runeOf_toNat c).symm⟩
      rcases hvalid with hvalid | hvalid <;> omega

/-- The readers accept an escape with this letter for what it stands for, and nothing else. -/
def ReadsEscape (letter : Char) (width : Nat) (text : List Char) : Prop :=
  ∀ read ∈ [readEscape, readIRIEscape], ∀ c rest,
    read (letter :: text) = .ok (c, rest) ↔ DenotesEscape width text c rest

theorem readsEscape_of {letter : Char} (h1 : readEscape (letter :: text) = readHex width text)
    (h2 : readIRIEscape (letter :: text) = readHex width text) :
    ReadsEscape letter width text ↔
      ∀ n, width ≤ text.length → parseHex (text.take width) = some n → n ≤ 0x10FFFF := by
  rw [← readHex_denotes_iff]
  simp [ReadsEscape, h1, h2]

/-! ## IRIs -/

/-- The scan only looks for the end, and changes nothing. -/
theorem eq_append_of_scanIRI (h : scanIRI text = .ok (cs, rest)) : text = cs ++ '>' :: rest := by
  fun_induction scanIRI text generalizing cs with
  | case1 => cases h
  | case2 => cases h; rfl
  | case3 => cases h
  | case4 d text hd ih =>
    obtain ⟨r, hscan, hr⟩ := exists_of_map_ok h
    cases hr
    exact congrArg _ (congrArg _ (ih hscan))
  | case5 => cases h
  | case6 c text h1 h2 h3 ih =>
    obtain ⟨r, hscan, hr⟩ := exists_of_map_ok h
    cases hr
    exact congrArg _ (ih hscan)

theorem escapeIRIChar_cases (c : Char) :
    escapeIRIChar c = [c] ∨ ∃ w, escapeIRIChar c = '\x5c' :: w := by
  unfold escapeIRIChar
  split_ifs
  · exact .inr ⟨_, rfl⟩
  · exact .inr ⟨_, rfl⟩
  · exact .inl rfl

/-- What an escaped text has before its first backslash are characters of the text. -/
theorem exists_of_flatMap_escapeIRIChar (hds : '\x5c' ∉ ds)
    (h : cs.flatMap escapeIRIChar = ds ++ rest) :
    ∃ tail, cs = ds ++ tail ∧ rest = tail.flatMap escapeIRIChar := by
  induction ds generalizing cs with
  | nil => exact ⟨cs, rfl, h.symm⟩
  | cons d ds ih =>
    rw [mem_cons, not_or] at hds
    cases cs with
    | nil => cases h
    | cons c cs =>
      rw [flatMap_cons] at h
      rcases escapeIRIChar_cases c with hc | ⟨w, hc⟩
      · rw [hc] at h
        obtain ⟨rfl, hcs⟩ := List.cons.inj h
        obtain ⟨tail, rfl, hrest⟩ := ih hds.2 hcs
        exact ⟨tail, rfl, hrest⟩
      · rw [hc] at h
        exact absurd (List.cons.inj h).1 hds.1

/-- A backslash that is not the last character starts an escape, with some of the characters
    after it. -/
theorem exists_of_unescapeLoop (hne : cs ≠ [])
    (h : unescapeLoop ('\x5c' :: cs.flatMap escapeIRIChar) = .ok out) :
    ∃ (d : Char) (tail out' : List Char), out = d :: out' ∧ tail.length < cs.length ∧
      unescapeLoop (tail.flatMap escapeIRIChar) = .ok out' := by
  obtain ⟨e, w, hew⟩ : ∃ e w, cs.flatMap escapeIRIChar = e :: w := by
    obtain ⟨c, cs, rfl⟩ := exists_cons_of_ne_nil hne
    rw [flatMap_cons]
    rcases escapeIRIChar_cases c with hc | ⟨w, hc⟩ <;> exact ⟨_, _, by rw [hc]; rfl⟩
  rw [hew, unescapeLoop, if_pos ⟨rfl, cons_ne_nil e w⟩] at h
  split at h
  · cases h
  · next d rest hread =>
    obtain ⟨out', hloop, rfl⟩ := exists_of_map_ok h
    obtain ⟨width, hletter, hhex⟩ : ∃ width, '\x5c' ≠ e ∧ readHex width w = .ok (d, rest) := by
      simp only [readIRIEscape] at hread
      split_ifs at hread with hu hU
      · exact ⟨4, by rw [hu]; decide, hread⟩
      · exact ⟨8, by rw [hU]; decide, hread⟩
    obtain ⟨ds, n, -, rfl, hn, -⟩ := readHex_eq_ok.mp hhex
    obtain ⟨tail, rfl, rfl⟩ := exists_of_flatMap_escapeIRIChar
      (not_mem_cons_of_ne_of_not_mem hletter (foldlM_hexValue hn).1) hew
    exact ⟨d, tail, out', rfl, by rw [length_append, length_cons]; omega, hloop⟩

/-- Decoding makes nothing longer, also where a bare backslash starts an escape. -/
theorem length_le_of_unescapeLoop (h : unescapeLoop (cs.flatMap escapeIRIChar) = .ok out) :
    out.length ≤ cs.length := by
  induction hn : cs.length using Nat.strong_induction_on generalizing cs out with
  | _ n ih =>
    subst hn
    cases cs with
    | nil =>
      rw [flatMap_nil, unescapeLoop] at h
      cases h
      exact le_rfl
    | cons c cs =>
      by_cases hc : c = '\x5c'
      · subst hc
        by_cases hne : cs = []
        · subst hne
          rw [show ['\x5c'].flatMap escapeIRIChar = ['\x5c'] from rfl, unescapeLoop,
            if_neg (fun hcs => hcs.2 rfl), unescapeLoop] at h
          cases h
          exact le_rfl
        · -- A backslash of the text is read as the start of an escape, which gives one character.
          obtain ⟨d, tail, out', rfl, hlt, hloop⟩ := exists_of_unescapeLoop hne h
          have hle := ih _ (by rw [length_cons]; omega) hloop rfl
          rw [length_cons, length_cons]
          omega
      · rw [flatMap_cons, unescapeLoop_escapeIRIChar hc] at h
        obtain ⟨out', hloop, rfl⟩ := exists_of_map_ok h
        exact Nat.succ_le_succ (ih _ (Nat.lt_succ_self _) hloop rfl)

/-- A backslash starts an escape, which leaves too few characters for the rest; a space is
    refused by the scan. -/
theorem not_unescaped {iri : List Char} (hbad : unescapable c = true)
    (hscan : scanIRI ((c :: cs).flatMap escapeIRIChar ++ '>' :: rest) = .ok (iri, rest)) :
    unescapeLoop iri ≠ .ok (c :: cs) := by
  intro hloop
  obtain rfl := append_cancel_right (eq_append_of_scanIRI hscan)
  simp only [unescapable, Bool.or_eq_true, beq_iff_eq] at hbad
  rcases hbad with rfl | rfl
  · by_cases hne : cs = []
    · -- The backslash takes the closing bracket with it.
      subst hne
      rw [show ['\x5c'].flatMap escapeIRIChar ++ '>' :: rest = '\x5c' :: '>' :: rest from rfl,
        scanIRI_escape] at hscan
      obtain ⟨r, -, heq⟩ := exists_of_map_ok hscan
      cases heq
    · obtain ⟨d, tail, out, heq, hlt, htail⟩ := exists_of_unescapeLoop hne hloop
      obtain ⟨-, rfl⟩ := List.cons.inj heq
      exact absurd (length_le_of_unescapeLoop htail) (Nat.not_le_of_lt hlt)
  · rw [show (' ' :: cs).flatMap escapeIRIChar = ' ' :: cs.flatMap escapeIRIChar from rfl,
      cons_append, scanIRI.eq_def] at hscan
    cases hscan

/-- The backslash and the blank are the two characters that do not survive. -/
theorem readIRI_escapeIRI_iff :
    readIRI ('<' :: escapeIRI cs ++ '>' :: rest) = .ok (cs, rest) ↔ '\x5c' ∉ cs ∧ ' ' ∉ cs := by
  constructor
  · intro h
    cases hfind : cs.find? unescapable with
    | none =>
      have hnone := find?_eq_none.mp hfind
      exact ⟨fun hmem => hnone _ hmem rfl, fun hmem => hnone _ hmem rfl⟩
    | some c =>
      -- Everything before the first such character is read back.
      obtain ⟨hbad, a, b, rfl, hgood⟩ := find?_eq_some_iff_append.mp hfind
      replace hgood : ∀ c ∈ a, unescapable c = false := by simpa using hgood
      rw [cons_append] at h
      obtain ⟨iri, hscan, hloop⟩ := readIRI_eq_ok.mp h
      rw [escapeIRI_eq, flatMap_append, append_assoc, scanIRI_escaped hgood] at hscan
      obtain ⟨⟨iri, r⟩, hiri, heq⟩ := exists_of_map_ok hscan
      obtain ⟨rfl, rfl⟩ := Prod.mk.inj heq
      rw [unescapeLoop_escaped hgood] at hloop
      obtain ⟨out, hloop, heq⟩ := exists_of_map_ok hloop
      obtain rfl := append_cancel_left heq
      exact absurd hloop (not_unescaped hbad hiri)
  · rintro ⟨hslash, hspace⟩
    refine readIRI_escapeIRI (fun c hc => ?_) rest
    simp only [unescapable, Bool.or_eq_false_iff, beq_eq_false_iff_ne]
    exact ⟨ne_of_mem_of_not_mem hc hslash, ne_of_mem_of_not_mem hc hspace⟩

/-- Reading gives back what was escaped for a literal, and for an IRI exactly if it has no
    backslash and no space. An escape is read for what it stands for exactly if that is not a
    number above all code points. -/
theorem escapes_read_iff (cs rest text : List Char) :
    (readQuoted (escapeString cs ++ '\x22' :: rest) = .ok (cs, rest) ∧
      escapeString cs = cs.flatMap escapeStringChar ∧
      escapeIRI cs = cs.flatMap escapeIRIChar ∧ unescapeIRI cs = unescapeLoop cs) ∧
    (readIRI ('<' :: escapeIRI cs ++ '>' :: rest) = .ok (cs, rest) ↔ '\x5c' ∉ cs ∧ ' ' ∉ cs) ∧
    ReadsEscape 'u' 4 text ∧
    (ReadsEscape 'U' 8 text ↔
      ∀ n, 8 ≤ text.length → parseHex (text.take 8) = some n → n ≤ 0x10FFFF) := by
  refine ⟨⟨readQuoted_escapeString cs rest, escapeString_eq cs, escapeIRI_eq cs,
    unescapeIRI_eq cs⟩, readIRI_escapeIRI_iff, ?_, readsEscape_of rfl rfl⟩
  refine (readsEscape_of rfl rfl).mpr fun n hlen hn => ?_
  have hlt := (foldlM_hexValue hn).2
  rw [length_take, min_eq_left hlen] at hlt
  omega

/-- A number above all code points is read as the replacement character. -/
theorem readEscape_above :
    readEscape ['U', '0', '0', '1', '1', '0', '0', '0', '0'] = .ok ('�', []) ∧
      ¬ReadsEscape 'U' 8 ['0', '0', '1', '1', '0', '0', '0', '0'] := by
  refine ⟨by decide +kernel, fun h => ?_⟩
  exact absurd ((readsEscape_of rfl rfl).mp h 0x110000 (by decide) (by decide)) (by decide)

end GoRdf
