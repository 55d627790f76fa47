import Mathlib.Data.List.TakeWhile
import GoRdf.Core.Order
import GoRdf.Theory.Decimal

/-!
# How Numbers Compare

`compareNumbers` compares integers and decimals exactly, and takes their floats where
those are exact enough: integers of 53 bits, and decimals of 15 significant digits
whose float is not below the normal range. It looks at the floats of everything else.

A decimal is read as a float by rounding its value, so that the floats of two values
are in the order of the values or equal. Values that are exact enough are told apart
by their floats: the floats are within one part in `2 ^ 53` of the values, and two
different decimals of 15 digits are farther apart than that. So the fast answer is
the exact one.

## Main definitions

* `Told`: The values that a float tells apart.

## Theorems

* `parseFloat_decimal`: A decimal is read by rounding its value.
* `Told.threeWay_round`: Floats compare as the values that they tell apart.
* `compareNumbers_exact`: Integers and decimals are compared by their values.
* `compareShortNumbers_eq`: The shortcut for short numbers changes nothing.
-/

namespace GoRdf

open Lib List Option FloatFormat

variable {cs : List Char} {c : Char}

/-! ## Decimals as floats -/

theorem toLower_of_isDigit (h : isDigit c = true) : c.toLower = c := by
  simp only [isDigit, Bool.and_eq_true, decide_eq_true_eq, Char.le_def] at h
  refine dif_neg fun hupper => ?_
  exact absurd (UInt32.le_trans hupper.1 h.2) (by decide)

theorem digitOf_ten (h : isDigit c = true) : digitOf 10 c = some (c.toNat - '0'.toNat) := by
  rw [digitOf, if_pos h]

theorem isDigit_ne {d : Char} (h : isDigit c = true) (hd : isDigit d = false) : c ≠ d := by
  intro heq
  rw [heq, hd] at h
  simp at h

/-- Digits are read into the mantissa. -/
theorem readMantissa_digits (point : Bool) (ds rest : List Char)
    (hds : ∀ c ∈ ds, isDigit c = true) (m : Mantissa) :
    readMantissa 10 point m (ds ++ rest) =
      readMantissa 10 point
        ⟨m.value * 10 ^ ds.length + digitsValue ds, if point then m.frac + ds.length else m.frac,
          m.digits || !ds.isEmpty⟩ rest := by
  induction ds generalizing m with
  | nil =>
    simp [digitsValue]
  | cons d ds ih =>
    have hd := hds d (by simp)
    rw [cons_append, readMantissa, if_neg (isDigit_ne hd (by decide)),
      if_neg (isDigit_ne hd (by decide)), digitOf_ten hd]
    dsimp only
    rw [ih fun c hc => hds c (by simp [hc])]
    congr 1
    simp only [Mantissa.mk.injEq, isEmpty_cons, Bool.not_false, Bool.or_true,
      Bool.true_or, and_true, length_cons]
    refine ⟨?_, ?_⟩
    · rw [digitsValue_cons]
      ring
    · split_ifs <;> omega

/-- Digits and points have underscores in order: there are none. -/
theorem underscores_of_body (h : ∀ c ∈ cs, c = '.' ∨ isDigit c = true) {seen : Seen}
    (hseen : seen ≠ .underscore) : underscores 10 seen cs = true := by
  induction cs generalizing seen with
  | nil => simpa [underscores] using hseen
  | cons c cs ih =>
    have hcs := fun {seen : Seen} (hs : seen ≠ .underscore) =>
      ih (fun d hd => h d (by simp [hd])) hs
    rw [underscores]
    rcases h c (by simp) with rfl | hdigit
    · rw [if_neg (by decide), if_neg (by decide), hcs (by decide)]
      simpa using hseen
    · rw [if_pos (by rw [digitOf_ten hdigit]; rfl)]
      exact hcs (by decide)

theorem splitBase_of_body (h : ∀ c ∈ cs, c = '.' ∨ isDigit c = true) : splitBase cs = (10, cs) := by
  unfold splitBase
  split
  · rename_i x c cs
    have hlower : x.toLower ≠ 'x' := by
      rcases h x (by simp) with rfl | hdigit
      · decide
      · rw [toLower_of_isDigit hdigit]
        exact isDigit_ne hdigit (by decide)
    rw [if_neg hlower]
  · rfl

theorem decimal_ne_nil (h : isDecimalLexical cs = true) : cs ≠ [] := by
  rintro rfl
  simp [isDecimalLexical, cutAt, skipSign, allDigits] at h

/-- A sign, or none. -/
theorem skipSign_cases (cs : List Char) :
    cs = skipSign cs ∨ ∃ c, (c = '+' ∨ c = '-') ∧ cs = c :: skipSign cs := by
  unfold skipSign
  split
  · exact .inr ⟨'+', .inl rfl, rfl⟩
  · exact .inr ⟨'-', .inr rfl, rfl⟩
  · exact .inl rfl

section

variable {int frac : List Char} (h : IsDecimal cs int frac)

include h

theorem point_or_digit : ∀ c ∈ skipSign cs, c = '.' ∨ isDigit c = true := by
  intro c hc
  rcases h.body with hbody | ⟨hbody, -⟩
  · rw [hbody, mem_append, mem_cons] at hc
    rcases hc with hc | hc | hc
    · exact .inr (h.digits c (mem_append_left _ hc))
    · exact .inl hc
    · exact .inr (h.digits c (mem_append_right _ hc))
  · rw [hbody] at hc
    exact .inr (h.digits c (mem_append_left _ hc))

/-- Every character of a decimal is a sign, a point or a digit. -/
theorem sign_or_digit : ∀ c ∈ cs, c ∈ ['+', '-', '.'] ∨ isDigit c = true := by
  have hbody : ∀ c ∈ skipSign cs, c ∈ ['+', '-', '.'] ∨ isDigit c = true :=
    fun c hc => (point_or_digit h c hc).imp_left fun heq => by simp [heq]
  rcases skipSign_cases cs with heq | ⟨s, hs, heq⟩
  · rwa [heq]
  · rw [heq, forall_mem_cons]
    exact ⟨.inl (by rcases hs with rfl | rfl <;> decide), hbody⟩

/-- The mantissa of a decimal. -/
theorem readMantissa_decimal :
    readMantissa 10 false ⟨0, 0, false⟩ (skipSign cs) =
      (⟨digitsValue (int ++ frac), frac.length, true⟩, []) := by
  have hint : ∀ c ∈ int, isDigit c = true := fun c hc => h.digits c (mem_append_left _ hc)
  have hfrac : ∀ c ∈ frac, isDigit c = true := fun c hc => h.digits c (mem_append_right _ hc)
  have hsome : (!int.isEmpty || !frac.isEmpty) = true := by
    have hne := h.ne_nil
    cases int with
    | nil => cases frac <;> simp_all
    | cons c int => rfl
  rcases h.body with hbody | ⟨hbody, rfl⟩
  · have hread := readMantissa_digits true frac [] hfrac
      ⟨0 * 10 ^ int.length + digitsValue int, 0, false || !int.isEmpty⟩
    rw [append_nil] at hread
    rw [hbody, readMantissa_digits false int _ hint, readMantissa, if_neg (by decide),
      if_pos rfl, if_neg (by decide), if_neg (by decide), hread, readMantissa]
    simp [digitsValue_append, hsome]
  · have hread := readMantissa_digits false int [] hint ⟨0, 0, false⟩
    rw [append_nil] at hread
    rw [hbody, hread, readMantissa]
    simpa using hsome

/-- A decimal denotes its value. -/
theorem readFloat_decimal : readFloat cs = some (decimalValue cs) := by
  have hbody := point_or_digit h
  have hunder : underscores 10 .start (skipSign cs) = true := underscores_of_body hbody (by decide)
  unfold readFloat
  rw [splitBase_of_body hbody]
  dsimp only
  rw [readMantissa_decimal h]
  simp [hunder, decimalValue, h.parts]

end

/-- A decimal is read by rounding its value. -/
theorem parseFloat_decimal (h : isDecimalLexical cs = true) :
    parseFloat cs =
      some (some (binary64.round (decimalValue cs)),
        decide (binary64.round (decimalValue cs) ≠ ⊤ ∧ binary64.round (decimalValue cs) ≠ ⊥)) := by
  obtain ⟨int, frac, hform⟩ := exists_isDecimal h
  have hchars := sign_or_digit hform
  have hlower : cs.map Char.toLower = cs := by
    refine (map_congr_left fun c hc => ?_).trans (map_id cs)
    rcases hchars c hc with hsign | hdigit
    · simp only [mem_cons, not_mem_nil, or_false] at hsign
      rcases hsign with rfl | rfl | rfl <;> rfl
    · exact toLower_of_isDigit hdigit
  -- The words for the special values have an `n`, which no decimal has.
  have hn : 'n' ∉ cs := fun hmem => absurd (hchars _ hmem) (by decide)
  have hnan : cs ≠ ['n', 'a', 'n'] := by
    rintro rfl
    exact hn mem_cons_self
  have hinf : ¬ (skipSign cs = "inf".toList ∨ skipSign cs = "infinity".toList) := by
    intro hword
    have hskip : 'n' ∈ skipSign cs := by
      rcases hword with hword | hword
      · rw [hword]
        decide
      · rw [hword]
        decide
    rcases point_or_digit hform 'n' hskip with heq | hdigit
    · exact absurd heq (by decide)
    · exact absurd hdigit (by decide)
  unfold parseFloat
  rw [hlower, if_neg hnan, if_neg hinf, readFloat_decimal hform]
  rfl

/-! ## Values that floats tell apart -/

theorem binary64_digits : binary64.digits = 53 := rfl

/-- The values that a float tells apart: integers that it is equal to, and decimals of
    15 digits that it has all its digits for. -/
structure Told (v : ℚ) : Prop where
  scaled : ∃ (k : Int) (s : Nat), v = k / (10 : Nat) ^ s ∧
    (|k| < 10 ^ 15 ∨ s = 0 ∧ binary64.roundSigned v = v)
  near : binary64.Near v
  finite : |binary64.roundSigned v| < 2 ^ binary64.high

theorem Told.eq_of_round_eq {v w : ℚ} (hv : Told v) (hw : Told w)
    (h : binary64.round v = binary64.round w) : v = w := by
  have hsigned : binary64.roundSigned v = binary64.roundSigned w := by
    rw [round_eq_ofRat hv.finite, round_eq_ofRat hw.finite] at h
    exact WithTop.coe_injective (WithBot.coe_injective h)
  have hfew : ∀ {k : Int}, |k| < 10 ^ 15 → 2 * |k| + 1 < 2 ^ binary64.digits := by
    rw [binary64_digits]
    omega
  obtain ⟨k, s, hk, hkfew⟩ := hv.scaled
  obtain ⟨m, t, hm, hmfew⟩ := hw.scaled
  -- the one with more fractional digits decides, where it has few digits
  wlog hst : s ≤ t generalizing v w k m s t
  · exact (this hw hv h.symm hsigned.symm m t hm hmfew k s hk hkfew (by omega)).symm
  rcases hmfew with hmfew | ⟨rfl, hmeq⟩
  · subst hk hm
    exact eq_of_roundSigned_eq (by norm_num) hst (hfew hmfew) hv.near hw.near hsigned
  · obtain rfl : s = 0 := Nat.le_zero.mp hst
    rcases hkfew with hkfew | ⟨-, hkeq⟩
    · subst hk hm
      exact (eq_of_roundSigned_eq (by norm_num) le_rfl (hfew hkfew) hw.near hv.near
        hsigned.symm).symm
    · rw [← hkeq, ← hmeq, hsigned]

/-- Floats compare as the values that they tell apart. -/
theorem Told.threeWay_round {v w : ℚ} (hv : Told v) (hw : Told w) :
    threeWay (binary64.round v) (binary64.round w) = threeWay v w :=
  threeWay_of_mono (round_mono (by decide)) (round_mono (by decide))
    (hv.eq_of_round_eq hw)

/-- What is below a power of two far from being too large is finite. -/
theorem finite_of_le {q : ℚ} (h : |q| ≤ 2 ^ 53) :
    |binary64.roundSigned q| < 2 ^ binary64.high := by
  refine (abs_roundSigned_le (by decide) (by decide) h).trans_lt ?_
  show (2 : ℚ) ^ 53 < 2 ^ (1024 : Int)
  rw [← zpow_natCast]
  exact zpow_lt_zpow_right₀ (by norm_num) (by norm_num)

theorem told_integer {i : Int} (h : i.natAbs < 2 ^ 53) : Told i := by
  have hround : binary64.roundSigned i = i := roundSigned_intCast (by decide) h
  refine ⟨⟨i, 0, by simp, .inr ⟨rfl, hround⟩⟩, near_of_eq hround, finite_of_le ?_⟩
  rw [← Int.cast_abs, Int.abs_eq_natAbs]
  exact_mod_cast h.le

theorem told_finite {k : Int} {s : Nat} (hk : |k| < 10 ^ 15) :
    |binary64.roundSigned (k / (10 : Nat) ^ s)| < 2 ^ binary64.high := by
  refine finite_of_le ?_
  have hpow : (1 : ℚ) ≤ ((10 : Nat) : ℚ) ^ s := one_le_pow₀ (by norm_num)
  have hcast : |(k : ℚ)| < 10 ^ 15 := by exact_mod_cast hk
  rw [abs_div, abs_of_pos (by positivity : (0 : ℚ) < ((10 : Nat) : ℚ) ^ s)]
  exact ((div_le_self (abs_nonneg _) hpow).trans hcast.le).trans (by norm_num)

/-- A decimal of 15 digits, when its float is not below the normal range. -/
theorem told_scaled {k : Int} {s : Nat} (hk : |k| < 10 ^ 15)
    (hnormal : minNormalFloat64 ≤ |binary64.roundSigned (k / (10 : Nat) ^ s)|) :
    Told (k / (10 : Nat) ^ s) where
  scaled := ⟨k, s, rfl, .inl hk⟩
  near := near_of_normal (by decide) hnormal
  finite := told_finite hk

/-! ## Numbers of literals -/

theorem abs_mantissa (cs ds : List Char) : |signOf cs * digitsValue ds| = digitsValue ds := by
  rcases signOf_cases cs with h | h
  · simp [h]
  · simp [h]

/-- Zeros in front do not count. -/
theorem digitsValue_dropWhile_zero (ds : List Char) :
    digitsValue (ds.dropWhile (· == '0')) = digitsValue ds := by
  induction ds with
  | nil => rfl
  | cons d ds ih =>
    by_cases hd : d = '0'
    · rw [dropWhile_cons, if_pos (by simpa using hd), ih, hd]
      rfl
    · rw [dropWhile_cons, if_neg (by simpa using hd)]

section

variable {int frac : List Char} (h : IsDecimal cs int frac)

include h

/-- The value of a decimal over a power of ten. -/
theorem decimalValue_eq : decimalValue cs =
    ((signOf cs * digitsValue (int ++ frac) : Int) : ℚ) / (10 : Nat) ^ frac.length := by
  rw [decimalValue, h.parts]
  push_cast
  rfl

/-- The digits of a decimal, without its sign and its point. -/
theorem filter_isDigit_decimal : cs.filter isDigit = int ++ frac := by
  have hskip : cs.filter isDigit = (skipSign cs).filter isDigit := by
    rcases skipSign_cases cs with heq | ⟨s, hs, heq⟩
    · rw [← heq]
    · rw [heq, filter_cons_of_neg (by rcases hs with rfl | rfl <;> decide), ← heq]
  have hself := filter_eq_self.mpr h.digits
  rw [hskip]
  rcases h.body with hbody | ⟨hbody, rfl⟩
  · rw [hbody, filter_append, filter_cons_of_neg (by decide), ← filter_append, hself]
  · rw [append_nil] at hself ⊢
    rw [hbody, hself]

theorem mantissa_lt {n : Nat} (hn : significantDigits cs ≤ n) :
    |signOf cs * digitsValue (int ++ frac)| < 10 ^ n := by
  have hlt : digitsValue (int ++ frac) < 10 ^ significantDigits cs := by
    unfold significantDigits
    rw [filter_isDigit_decimal h, ← digitsValue_dropWhile_zero]
    exact digitsValue_lt fun c hc => h.digits c (dropWhile_sublist _ |>.subset hc)
  rw [abs_mantissa]
  exact_mod_cast hlt.trans_le (Nat.pow_le_pow_right (by norm_num) hn)

/-- A decimal of few significant digits is told apart when its float is normal, or when
    it is zero. -/
theorem told_decimal
    (hexact : significantDigits cs = 0 ∨ significantDigits cs ≤ 15 ∧
      minNormalFloat64 ≤ |binary64.roundSigned (decimalValue cs)|) : Told (decimalValue cs) := by
  rcases hexact with hzero | ⟨hfew, hnormal⟩
  · have hvalue : decimalValue cs = ((0 : Int) : ℚ) := by
      rw [decimalValue_eq h, Int.abs_lt_one_iff.mp (mantissa_lt h hzero.le), Int.cast_zero,
        zero_div]
    rw [hvalue]
    exact told_integer (by decide)
  · rw [decimalValue_eq h] at hnormal ⊢
    exact told_scaled (mantissa_lt h hfew) hnormal

end

/-- What a number of an integer or a decimal literal is. -/
structure ExactNumber (n : Numeric) (v : ℚ) : Prop where
  exact : n.exact = some v
  float : n.f = some (binary64.round v)
  told : n.fexact = true → Told v
  integer : n.kind = .integer → ∃ i, n.i = some i ∧ v = i

theorem absGe_round {q v : ℚ} (hfinite : |binary64.roundSigned v| < 2 ^ binary64.high)
    (h : Float64.absGe (some (binary64.round v)) q = true) : q ≤ |binary64.roundSigned v| := by
  unfold Float64.absGe at h
  rw [round_eq_ofRat hfinite] at h
  simp only [decide_eq_true_eq] at h
  rcases h with h | h
  · have hle : q ≤ binary64.roundSigned v := WithTop.coe_le_coe.mp (WithBot.coe_le_coe.mp h)
    exact hle.trans (le_abs_self _)
  · have hle : binary64.roundSigned v ≤ -q := WithTop.coe_le_coe.mp (WithBot.coe_le_coe.mp h)
    exact (by linarith : q ≤ -binary64.roundSigned v).trans (neg_le_abs _)

theorem exactNumber_of_numericValue {datatype : String} {n : Numeric}
    (h : numericValue datatype cs = some n) (hkind : n.kind.isExact = true) :
    ∃ v, ExactNumber n v := by
  unfold numericValue at h
  split at h
  · simp at h
  · dsimp only at h
    split_ifs at h with hlex hbounds
    cases h
    refine ⟨integerValue cs, rfl, rfl, ?_, fun _ => ⟨_, rfl, rfl⟩⟩
    intro hfexact
    simp only [decide_eq_true_eq] at hfexact
    -- A float is used to tell only up to the size its mantissa holds.
    exact told_integer (Nat.size_le.mp hfexact)
  · split_ifs at h with hlex
    rw [parseFloat_decimal hlex] at h
    cases h
    refine ⟨decimalValue cs, by simp [Numeric.exact, decimal_ne_nil hlex], rfl, ?_, by simp⟩
    intro hfexact
    simp only [Bool.or_eq_true, beq_iff_eq, Bool.and_eq_true, decide_eq_true_eq] at hfexact
    obtain ⟨int, frac, hform⟩ := exists_isDecimal hlex
    refine told_decimal hform (hfexact.imp_right fun h => ⟨h.1, absGe_round ?_ h.2⟩)
    rw [decimalValue_eq hform]
    exact told_finite (mantissa_lt hform h.1)
  · rename_i kind hnot hdec hkinds
    rcases map_eq_some_iff.mp h with ⟨f, -, rfl⟩
    cases kind with
    | integer => exact absurd rfl hnot
    | decimal => exact absurd rfl hdec
    | float | double => simp [NumKind.isExact] at hkind

/-- Integers and decimals are compared by their values. -/
theorem compareNumbers_exact {a b : Numeric} {v w : ℚ} (ha : ExactNumber a v)
    (hb : ExactNumber b w) (hkinda : a.kind.isExact = true) (hkindb : b.kind.isExact = true) :
    compareNumbers a b = threeWay v w := by
  unfold compareNumbers
  by_cases hint : a.kind = .integer ∧ b.kind = .integer
  · rw [if_pos hint]
    rcases ha.integer hint.1 with ⟨i, hi, rfl⟩
    rcases hb.integer hint.2 with ⟨j, hj, rfl⟩
    rw [hi, hj]
    refine (threeWay_of_mono (f := fun i : Int => (i : ℚ)) ?_ ?_ ?_).symm
    · exact fun h => Int.cast_le.mpr h
    · exact fun h => Int.cast_le.mpr h
    · exact fun h => Int.cast_inj.mp h
  · rw [if_neg hint]
    by_cases hfexact : a.fexact = true ∧ b.fexact = true
    · rw [if_neg fun hand => hand.2.2 hfexact, ha.float, hb.float]
      exact (ha.told hfexact.1).threeWay_round (hb.told hfexact.2)
    · rw [if_pos ⟨hkinda, hkindb, hfexact⟩, ha.exact, hb.exact]
      rfl

/-- Others are compared by their floats. -/
theorem compareNumbers_float {a b : Numeric} (h : a.kind.isExact = false ∨ b.kind.isExact = false) :
    compareNumbers a b = cmpFloat a.f b.f := by
  unfold compareNumbers
  rw [if_neg, if_neg]
  · rintro ⟨hkinda, hkindb, -⟩
    rcases h with h | h
    · simp [h] at hkinda
    · simp [h] at hkindb
  · rintro ⟨hkinda, hkindb⟩
    rcases h with h | h
    · simp [hkinda, NumKind.isExact] at h
    · simp [hkindb, NumKind.isExact] at h

/-! ## Short numbers -/

theorem allDigits_not_mem {ds : List Char} (h : allDigits ds = true) : '.' ∉ ds := by
  intro hmem
  simp only [allDigits, Bool.and_eq_true, List.all_eq_true] at h
  exact absurd (h.2 _ hmem) (by decide)

/-- An integer is a decimal without a point. -/
theorem decimalParts_integer (h : isIntegerLexical cs = true) :
    cutAt '.' (skipSign cs) = (skipSign cs, none) := by
  have hdrop : (skipSign cs).dropWhile (· != '.') = [] := by
    rw [dropWhile_eq_nil_iff]
    intro c hc
    have hne : c ≠ '.' := by
      rintro rfl
      exact allDigits_not_mem h hc
    simpa using hne
  rw [cutAt, hdrop]

theorem isDecimalLexical_of_isIntegerLexical (h : isIntegerLexical cs = true) :
    isDecimalLexical cs = true := by
  rw [isDecimalLexical, decimalParts_integer h]
  exact h

theorem decimalValue_integer (h : isIntegerLexical cs = true) :
    decimalValue cs = integerValue cs := by
  simp [decimalValue, decimalParts, decimalParts_integer h, integerValue]

/-- A short decimal is far above the end of the normal range. -/
theorem told_short (h : isDecimalLexical cs = true) (hshort : cs.length ≤ 15) :
    Told (decimalValue cs) := by
  obtain ⟨int, frac, hform⟩ := exists_isDecimal h
  have hfew : significantDigits cs ≤ 15 :=
    ((dropWhile_sublist _).length_le.trans (length_filter_le _ _)).trans hshort
  have hfrac : frac.length ≤ 15 := by
    have hfilter := congrArg List.length (filter_isDigit_decimal hform)
    have hle := length_filter_le isDigit cs
    rw [length_append] at hfilter
    omega
  have hvalue := decimalValue_eq hform
  by_cases hzero : digitsValue (int ++ frac) = 0
  · rw [hzero, Nat.cast_zero, mul_zero, Int.cast_zero, zero_div] at hvalue
    rw [hvalue]
    exact told_integer (i := 0) (by decide)
  · refine told_decimal hform (.inr ⟨hfew, ?_⟩)
    have hbelow : (2 : ℚ) ^ (-50 : Int) ≤ |decimalValue cs| := by
      have hone : (1 : ℚ) ≤ digitsValue (int ++ frac) := by
        exact_mod_cast Nat.one_le_iff_ne_zero.mpr hzero
      have hpow : ((10 : Nat) : ℚ) ^ frac.length ≤ 2 ^ 50 :=
        (pow_le_pow_right₀ (by norm_num) hfrac).trans (by norm_num)
      have hten : (0 : ℚ) < ((10 : Nat) : ℚ) ^ frac.length := by positivity
      rw [hvalue, abs_div, abs_of_pos hten, ← Int.cast_abs, abs_mantissa, le_div_iff₀ hten]
      calc (2 : ℚ) ^ (-50 : Int) * ((10 : Nat) : ℚ) ^ frac.length
          ≤ 2 ^ (-50 : Int) * 2 ^ 50 := mul_le_mul_of_nonneg_left hpow (by positivity)
        _ = 1 := by norm_num
        _ ≤ _ := hone
    refine le_trans ?_ (zpow_le_abs_roundSigned (by decide) (by decide) hbelow)
    exact zpow_le_zpow_right₀ (by norm_num) (by norm_num)

theorem floatValue_decimal (h : isDecimalLexical cs = true) {f : Float64}
    (hf : floatValue cs = some f) : f = some (binary64.round (decimalValue cs)) := by
  unfold floatValue at hf
  rw [parseFloat_decimal h] at hf
  simp only [bind_some] at hf
  split_ifs at hf
  exact (some.inj hf).symm

/-- A short number is one that its float tells apart. -/
theorem exactNumber_of_short {l : Literal} (hlong : ¬ 15 < l.lexical.length)
    (h : shortNumberLexical l = true) {f : Float64} (hf : floatValue l.lexical.toList = some f) :
    ∃ n v, numericOf l = some n ∧ n.kind.isExact = true ∧ ExactNumber n v ∧ Told v ∧
      f = some (binary64.round v) := by
  have hlen : l.lexical.toList.length ≤ 15 := by
    rw [String.length_toList]
    omega
  -- Both datatypes are read through `numericValue`, so the exact value is settled once.
  suffices hread : ∃ d n v, l.datatype = some d ∧ numericValue d l.lexical.toList = some n ∧
      n.kind.isExact = true ∧ n.exact = some v ∧ Told v ∧ f = some (binary64.round v) by
    obtain ⟨d, n, v, hd, hn, hkind, hexact, htold, hfloat⟩ := hread
    obtain ⟨w, hw⟩ := exactNumber_of_numericValue hn hkind
    obtain rfl : w = v := some.inj (hw.exact.symm.trans hexact)
    exact ⟨n, w, by rw [numericOf, hd]; exact hn, hkind, hw, htold, hfloat⟩
  unfold shortNumberLexical at h
  generalize l.lexical.toList = cs at *
  split_ifs at h with hinteger hdecimal
  · have hlex := isDecimalLexical_of_isIntegerLexical h
    have htold := told_short hlex hlen
    have hfloat := floatValue_decimal hlex hf
    rw [decimalValue_integer h] at htold hfloat
    have hnumeric : ∃ n, numericValue xsdInteger cs = some n ∧ n.kind.isExact = true ∧
        n.exact = some (integerValue cs : ℚ) := by
      unfold numericValue
      rw [if_pos h]
      exact ⟨_, rfl, rfl, rfl⟩
    rcases hnumeric with ⟨n, hn, hkind, hexact⟩
    exact ⟨_, n, _, hinteger, hn, hkind, hexact, htold, hfloat⟩
  · have htold := told_short h hlen
    have hfloat := floatValue_decimal h hf
    have hnumeric : ∃ n, numericValue xsdDecimal cs = some n ∧ n.kind.isExact = true ∧
        n.exact = some (decimalValue cs) := by
      unfold numericValue
      rw [if_pos h, parseFloat_decimal h]
      exact ⟨_, rfl, rfl, by simp [Numeric.exact, decimal_ne_nil h]⟩
    rcases hnumeric with ⟨n, hn, hkind, hexact⟩
    exact ⟨_, n, _, hdecimal, hn, hkind, hexact, htold, hfloat⟩

/-- The shortcut for short numbers changes nothing. -/
theorem compareShortNumbers_eq {a b : Literal} {c : Int} (h : compareShortNumbers a b = some c) :
    ∃ x y, numericOf a = some x ∧ numericOf b = some y ∧ x.f ≠ none ∧ y.f ≠ none ∧
      c = compareNumbers x y := by
  unfold compareShortNumbers at h
  split_ifs at h with hlong hshort
  rw [not_or] at hlong
  rw [Bool.and_eq_true] at hshort
  split at h
  · rename_i f g hf hg
    rcases exactNumber_of_short hlong.1 hshort.1 hf with ⟨x, v, hx, hxkind, hxv, hv, rfl⟩
    rcases exactNumber_of_short hlong.2 hshort.2 hg with ⟨y, w, hy, hykind, hyw, hw, rfl⟩
    refine ⟨x, y, hx, hy, by simp [hxv.float], by simp [hyw.float], ?_⟩
    rw [compareNumbers_exact hxv hyw hxkind hykind, ← some.inj h]
    exact hv.threeWay_round hw
  · simp at h

end GoRdf
