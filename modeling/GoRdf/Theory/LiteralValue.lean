import GoRdf.Core.LiteralValue
import GoRdf.Lib.AssocList
import GoRdf.Theory.Decimal

/-!
# When Values Are Equal

What `valueEqual` compares is one key of a literal: its datatype, the value of its
text or else the text, its language tag and its direction. Literals that are numbers
have such a key, so that the comparison is an equivalence among them. Small integers
are read a second way, which makes no difference.

A date with a time zone denotes an instant. Its day is counted here from the first of
January of the year 1, month by month, and in the source from the first of March of the
year 0, without a table. An instant has one day, second and fraction without zeros at
its end, so dates are equal exactly when their instants are. The instant is read off the
parts of the text, for which the reader is not asked.

## Main definitions

* `XSDValue`, `valueKey`: What a literal is compared by.
* `dayNumber`, `nextDay`: The calendar.
* `DateTimeText`, `DateTimeText.instant`: The parts of a date with a time zone, and the
  instant that they denote.

## Theorems

* `valueEqual_iff`: Literals are equal that have one key.
* `valueEqual_equivalence`: The comparison is an equivalence, on either path.
* `dateTimes_equal_iff`: Dates are equal that denote one instant.
-/

namespace GoRdf

open Lib List

variable {cs a b : List Char} {range : Option Int × Option Int}

/-! ## Integers -/

theorem length_le_byteLength (cs : List Char) : cs.length ≤ byteLength cs := by
  induction cs with
  | nil => rfl
  | cons c cs ih =>
    have hc := Char.utf8Size_pos c
    simp only [byteLength, map_cons, sum_cons, length_cons] at ih ⊢
    omega

/-- One sign may stand before the digits. -/
theorem parseXSDInteger_eq : parseXSDInteger cs range =
    if allDigits (skipSign cs) = true ∧ withinBounds range (integerValue cs) = true then
      some (integerValue cs) else none := by
  have hdigits : (1 < (cs.takeWhile isSign).length || !allDigits (cs.dropWhile isSign)) =
      !allDigits (skipSign cs) := by
    rcases cs with _ | ⟨c, cs⟩
    · rfl
    by_cases hc : c = '+' ∨ c = '-'
    · have hskip : skipSign (c :: cs) = cs := by
        rcases hc with rfl | rfl <;> rfl
      have hsign : isSign c = true := by simpa [isSign] using hc
      rcases cs with _ | ⟨d, ds⟩
      · simp [hskip, hsign]
      by_cases hd : isSign d = true
      · -- a second sign is no digit
        have hnot : isDigit d = false := by
          rcases (by simpa [isSign] using hd : d = '+' ∨ d = '-') with rfl | rfl <;> rfl
        simp [hskip, hsign, hd, allDigits, hnot]
      · simp [hskip, hsign, hd]
    · have hskip : skipSign (c :: cs) = c :: cs := by
        rw [not_or] at hc
        simp [skipSign, hc]
      have hsign : isSign c = false := by simpa [isSign] using hc
      simp [hskip, hsign]
  rw [parseXSDInteger, hdigits]
  cases allDigits (skipSign cs) <;> simp

theorem parseInt64_of_short (h : allDigits (skipSign cs) = true)
    (hlen : (skipSign cs).length ≤ 18) :
    parseInt64 cs = some (integerValue cs) ∧ |integerValue cs| < 2 ^ 63 := by
  have hlt : digitsValue (skipSign cs) < 10 ^ 18 := by
    simp only [allDigits, Bool.and_eq_true, all_eq_true] at h
    exact (digitsValue_lt h.2).trans_le (Nat.pow_le_pow_right (by norm_num) hlen)
  rw [parseInt64, if_pos h, integerValue, signOf]
  dsimp only
  split_ifs <;> simp <;> omega

/-- The bounds of the table are in the range of an `int64`, or above it at the top. -/
theorem clamped_iff (hrange : range ∈ integerTypes.map Prod.snd) {v : Int} (hv : |v| < 2 ^ 63) :
    (v < clamped (-(2 ^ 63)) range.1 ∨ clamped (2 ^ 63 - 1) range.2 < v) ↔
      ¬ withinBounds range v = true := by
  rw [abs_lt] at hv
  simp only [integerTypes, map_cons, map_nil, mem_cons, not_mem_nil, or_false] at hrange
  rcases hrange with rfl | rfl | rfl | rfl | rfl | rfl | rfl | rfl | rfl | rfl | rfl | rfl | rfl <;>
    simp [clamped, withinBounds, signedRange, unsignedRange] <;> omega

/-- A small text is read as any other. -/
theorem smallXSDInteger_eq (hrange : range ∈ integerTypes.map Prod.snd) {x : Option Int}
    (h : smallXSDInteger cs range = some x) : parseXSDInteger cs range = x := by
  rw [parseXSDInteger_eq]
  unfold smallXSDInteger at h
  dsimp only at h
  split_ifs at h with hlong hdigits
  · cases h
    simp_all
  · rw [Bool.not_eq_true', Bool.not_eq_false] at hdigits
    obtain ⟨hparse, habs⟩ := parseInt64_of_short hdigits
      ((length_le_byteLength _).trans (not_lt.mp hlong))
    rw [hparse] at h
    dsimp only at h
    simp only [clamped_iff hrange habs] at h
    split_ifs at h with hbounds <;> cases h <;> simp_all

theorem integerEqual_eq (hrange : range ∈ integerTypes.map Prod.snd) (a b : List Char) :
    integerEqual range a b = bigIntegerEqual range a b := by
  unfold integerEqual
  split
  · rename_i x y hx hy
    rw [bigIntegerEqual, smallXSDInteger_eq hrange hx, smallXSDInteger_eq hrange hy]
  · rfl

/-! ## Keys -/

/-- The value of a text. -/
inductive XSDValue
  | integer (i : Int)
  | decimal (q : ℚ)
  | float (x : Float64)
  | boolean (b : Bool)
  | dateTime (v : DateTimeValue)

/-- The value of a text of a datatype, if it has one. -/
def valueOf (datatype : String) (cs : List Char) : Option XSDValue :=
  match integerTypes.lookup datatype with
  | some range => (parseXSDInteger cs range).map .integer
  | none =>
    if datatype = xsdDecimal then (parseXSDDecimal cs).map .decimal
    else if datatype = xsdDouble then (parseXSDFloat binary64 cs).map .float
    else if datatype = xsd "float" then (parseXSDFloat binary32 cs).map .float
    else if datatype = xsdBoolean then (parseXSDBoolean cs).map .boolean
    else if datatype = xsd "dateTime" then (parseXSDDateTime cs).map .dateTime
    else none

/-- A value, or the text that has none. -/
def denoted (x : Option XSDValue) (cs : List Char) : XSDValue ⊕ List Char :=
  x.elim (.inr cs) .inl

/-- What a literal is compared by. -/
def valueKey (l : LiteralOf anyChar) :
    String × (XSDValue ⊕ List Char) × List Char × Option Direction :=
  (l.kind.datatypeText, denoted (valueOf l.kind.datatypeText l.lexical.toList) l.lexical.toList,
    l.kind.tagAndDir.1.map Char.toLower, l.kind.tagAndDir.2)

/-- The value of the literal is not a number. -/
def IsNaN (l : LiteralOf anyChar) : Prop :=
  valueOf l.kind.datatypeText l.lexical.toList = some (.float none)

theorem sameValue_iff {α : Type} {x y : Option α} {mk : α → XSDValue}
    (hmk : Function.Injective mk) {eq : α → α → Bool}
    (heq : ∀ u ∈ x, ∀ v ∈ y, eq u v = true ↔ u = v) :
    sameValue x y a b eq = true ↔ denoted (x.map mk) a = denoted (y.map mk) b := by
  cases x with
  | none => cases y <;> simp [sameValue, denoted]
  | some u =>
    cases y with
    | none => simp [sameValue, denoted]
    | some v => simp [sameValue, denoted, heq u rfl v rfl, hmk.eq_iff]

theorem floatEqual_iff {x y : Float64} (hx : x ≠ none) : floatEqual x y = true ↔ x = y := by
  rcases Option.ne_none_iff_exists'.mp hx with ⟨u, rfl⟩
  simp [floatEqual]

theorem tagAndDir_eq {k : LiteralKind anyChar}
    (h : ¬ (k.datatypeText = rdfLangString ∨ k.datatypeText = rdfDirLangString)) :
    k.tagAndDir = ([], none) := by
  cases k with
  | typed dt _ => rfl
  | lang _ | dirLang _ _ => simp [LiteralKind.datatypeText] at h

/-- Literals that are numbers are equal exactly when they have one key. -/
theorem valueEqual_iff {l m : LiteralOf anyChar} (hl : ¬ IsNaN l) :
    valueEqual l m = true ↔ valueKey l = valueKey m := by
  unfold IsNaN at hl
  unfold valueEqual valueKey
  dsimp only
  by_cases hdt : l.kind.datatypeText = m.kind.datatypeText
  swap
  · simp [hdt]
  rw [if_neg (not_not.mpr hdt), ← hdt]
  by_cases htag : l.kind.datatypeText = rdfLangString ∨ l.kind.datatypeText = rdfDirLangString
  · -- a text with a language tag has no value
    have hnone : ∀ cs, valueOf l.kind.datatypeText cs = none := by
      rcases htag with h | h <;> rw [h] <;> exact fun cs => rfl
    have hlookup : integerTypes.lookup l.kind.datatypeText = none := by
      rcases htag with h | h <;> rw [h] <;> rfl
    have hother : l.kind.datatypeText ≠ xsdDecimal ∧ l.kind.datatypeText ≠ xsdDouble ∧
        l.kind.datatypeText ≠ xsd "float" ∧ l.kind.datatypeText ≠ xsdBoolean ∧
        l.kind.datatypeText ≠ xsd "dateTime" := by
      rcases htag with h | h <;> rw [h] <;> decide
    rw [if_neg (by tauto), hlookup]
    simp [hnone, hother, htag, denoted, equalFold, and_assoc]
  · rw [tagAndDir_eq htag, tagAndDir_eq (hdt ▸ htag)]
    simp only [Prod.mk.injEq, true_and, and_true]
    generalize l.kind.datatypeText = dt, l.lexical.toList = a, m.lexical.toList = b at *
    -- The code answers for equal texts before it looks at the datatype, which is wrong for NaN
    -- only.
    by_cases hsame : a = b ∧ dt ≠ rdfLangString ∧ dt ≠ rdfDirLangString ∧
        ¬ ((dt = xsdDouble ∨ dt = xsd "float") ∧ a = "NaN".toList)
    · rw [if_pos hsame, hsame.1]
      simp
    rw [if_neg hsame]
    unfold valueOf at hl ⊢
    cases hlookup : integerTypes.lookup dt with
    | some range =>
      have hrange : range ∈ integerTypes.map Prod.snd := mem_map_of_mem (mem_of_lookup hlookup)
      dsimp only
      rw [integerEqual_eq hrange]
      exact sameValue_iff (fun _ _ => XSDValue.integer.inj) (by simp)
    | none =>
      rw [hlookup] at hl
      dsimp only at hl ⊢
      -- Floats are compared as floats, where NaN is not itself; the hypothesis excludes that.
      have hfloat : ∀ {format}, (parseXSDFloat format a).map XSDValue.float ≠ some (.float none) →
          ∀ u ∈ parseXSDFloat format a, ∀ v ∈ parseXSDFloat format b,
            floatEqual u v = true ↔ u = v := by
        intro format hne u hu v _
        refine floatEqual_iff ?_
        rintro rfl
        exact hne (by rw [hu]; rfl)
      rw [if_neg htag]
      split_ifs at hl ⊢
      · exact sameValue_iff (fun _ _ => XSDValue.decimal.inj) (by simp)
      · exact sameValue_iff (fun _ _ => XSDValue.float.inj) (hfloat hl)
      · exact sameValue_iff (fun _ _ => XSDValue.float.inj) (hfloat hl)
      · exact sameValue_iff (fun _ _ => XSDValue.boolean.inj) (by simp)
      · exact sameValue_iff (fun _ _ => XSDValue.dateTime.inj) (by simp)
      · simp [denoted]

/-- Literals that are numbers are divided into classes, and the fast path for integers
    gives the same answers as the other. -/
theorem valueEqual_equivalence :
    Equivalence (fun l m : {l : LiteralOf anyChar // ¬ IsNaN l} => valueEqual l.1 m.1 = true) ∧
      ∀ entry ∈ integerTypes, ∀ a b, integerEqual entry.2 a b = bigIntegerEqual entry.2 a b := by
  refine ⟨⟨fun l => ?_, fun {l m} h => ?_, fun {l m k} h h' => ?_⟩, fun entry hentry a b => ?_⟩
  · rw [valueEqual_iff l.2]
  · rw [valueEqual_iff l.2] at h
    exact (valueEqual_iff m.2).mpr h.symm
  · rw [valueEqual_iff l.2] at h ⊢
    exact h.trans ((valueEqual_iff m.2).mp h')
  · exact integerEqual_eq (mem_map_of_mem hentry) a b

/-! ## The calendar -/

/-- The days from the beginning of the year 1 on, those of the years before, of the
    months before and of the month. -/
def dayNumber (y : Int) (m d : Nat) : Int :=
  365 * (y - 1) + (y - 1) / 4 - (y - 1) / 100 + (y - 1) / 400 +
    ((List.range (m - 1)).map fun k => daysInMonth y (k + 1)).sum + d

/-- The day after a day. -/
def nextDay (y : Int) (m d : Nat) : Int × Nat × Nat :=
  if d < daysInMonth y m then (y, m, d + 1)
  else if m < 12 then (y, m + 1, 1)
  else (y + 1, 1, 1)

theorem floorDiv_eq {n k : Int} (hk : 0 < k) : floorDiv n k = n / k := by
  unfold floorDiv
  have hdvd : n.tmod k = 0 ↔ k ∣ n := Int.dvd_iff_tmod_eq_zero.symm
  rw [Int.tdiv_eq_ediv, Int.sign_eq_one_of_pos hk]
  simp only [ne_eq, hdvd, not_lt.mpr hk.le, decide_false, decide_eq_false_iff_not, not_not]
  split_ifs <;> omega

theorem daysInMonth_two (y : Int) :
    (daysInMonth y 2 : Int) = 28 + (y / 4 - (y - 1) / 4) - (y / 100 - (y - 1) / 100) +
      (y / 400 - (y - 1) / 400) := by
  simp only [daysInMonth, isLeapYear, if_true, Bool.and_eq_true, Bool.or_eq_true, beq_iff_eq,
    bne_iff_ne]
  split_ifs <;> omega

theorem daysInMonth_of_ne {y : Int} {m : Nat} (h : m ≠ 2) :
    daysInMonth y m = if m = 4 ∨ m = 6 ∨ m = 9 ∨ m = 11 then 30 else 31 :=
  if_neg h

/-- The two ways to count days differ by a number of days. -/
theorem daysFromCivil_eq {y : Int} {m d : Nat} (hm : 1 ≤ m) (hm' : m ≤ 12) :
    daysFromCivil y m d = dayNumber y m d + 305 := by
  have hfeb := daysInMonth_two y
  unfold daysFromCivil dayNumber
  dsimp only
  rw [floorDiv_eq (by norm_num)]
  interval_cases m <;> simp [List.range_succ, daysInMonth_of_ne] <;> omega

theorem dayNumber_nextDay {y : Int} {m d : Nat} (hm : 1 ≤ m) (hm' : m ≤ 12)
    (hd : d ≤ daysInMonth y m) :
    dayNumber (nextDay y m d).1 (nextDay y m d).2.1 (nextDay y m d).2.2 = dayNumber y m d + 1 := by
  unfold nextDay
  split_ifs with hlast hyear
  · unfold dayNumber
    push_cast
    ring
  · obtain ⟨k, rfl⟩ := Nat.exists_eq_add_of_le' hm
    simp only [dayNumber, Nat.add_sub_cancel, List.range_succ, map_append, sum_append, map_cons,
      map_nil, sum_cons, sum_nil]
    push_cast
    omega
  · have hdec : m = 12 := by omega
    have hfeb := daysInMonth_two y
    subst hdec
    simp [dayNumber, List.range_succ, daysInMonth_of_ne] at hlast hd ⊢
    omega

/-! ## Instants -/

/-- The fraction that digits behind a point denote. -/
def fractionValue (ds : List Char) : ℚ :=
  digitsValue ds / 10 ^ ds.length

/-- The instant a date denotes, in seconds; without a time zone it is one of UTC. -/
def DateTimeFields.instant (f : DateTimeFields) : ℚ :=
  86400 * dayNumber f.year f.month f.day +
    (f.hour * 3600 + f.minute * 60 + f.second - f.zone.getD 0 : Int) + fractionValue f.frac

/-- What `readDateTime` makes sure of. -/
structure DateTimeFields.Checked (f : DateTimeFields) : Prop where
  month : 1 ≤ f.month ∧ f.month ≤ 12
  digits : ∀ c ∈ f.frac, isDigit c = true
  trimmed : trimZeros f.frac = f.frac

theorem readFraction_spec {ds rest : List Char} (h : readFraction cs = some (ds, rest)) :
    (∀ c ∈ ds, isDigit c = true) ∧ trimZeros ds = ds := by
  unfold readFraction at h
  split at h
  · split at h
    · cases h
    · cases h
      refine ⟨fun c hc => ?_, by simp [trimZeros, dropWhile_idempotent]⟩
      exact mem_takeWhile_imp (mem_of_mem_trimZeros hc)
  · cases h
    exact ⟨fun _ hc => absurd hc not_mem_nil, rfl⟩

theorem checked_of_readDateTime {f : DateTimeFields} (h : readDateTime cs = some f) :
    f.Checked := by
  simp only [readDateTime, Option.bind_eq_bind, Option.bind_eq_some_iff,
    Option.ite_none_left_eq_some] at h
  obtain ⟨rest, -, -, -, month, -, day, -, hour, -, minute, -, second, -, ⟨frac, rest⟩, hfrac,
    hdate,
    -, -, zone, -, h⟩ := h
  cases h
  obtain ⟨hdigits, htrim⟩ := readFraction_spec hfrac
  exact ⟨by dsimp only; omega, hdigits, htrim⟩

theorem fixedDigits_digitsValue (h : ∀ c ∈ cs, isDigit c = true) :
    fixedDigits cs.length (digitsValue cs) = cs := by
  induction cs using List.reverseRecOn with
  | nil => rfl
  | append_singleton cs c ih =>
    have hc := h c (by simp)
    have hlt := digit_lt hc
    have hchar : Nat.digitChar (c.toNat - '0'.toNat) = c := by
      simp only [isDigit, Bool.and_eq_true, decide_eq_true_eq] at hc
      have hlow : 48 ≤ c.toNat := hc.1
      have hhigh : c.toNat ≤ 57 := hc.2
      have heq := Char.ofNat_toNat c
      generalize c.toNat = n at *
      subst heq
      interval_cases n <;> rfl
    rw [digitsValue_concat, length_append, length_singleton, fixedDigits,
      show (digitsValue cs * 10 + (c.toNat - '0'.toNat)) / 10 = digitsValue cs by omega,
      show (digitsValue cs * 10 + (c.toNat - '0'.toNat)) % 10 = c.toNat - '0'.toNat by omega,
      ih fun d hd => h d (by simp [hd]), hchar]

theorem fractionValue_lt_one {ds : List Char} (h : ∀ c ∈ ds, isDigit c = true) :
    fractionValue ds < 1 := by
  unfold fractionValue
  rw [div_lt_one (by positivity)]
  exact_mod_cast digitsValue_lt h

/-- Digits without zeros at their end are those of one fraction. -/
theorem fractionValue_inj {f f' : DateTimeFields} (hf : f.Checked) (hf' : f'.Checked)
    (h : fractionValue f.frac = fractionValue f'.frac) : f.frac = f'.frac := by
  unfold fractionValue at h
  rw [div_eq_div_iff (by positivity) (by positivity)] at h
  have htrim := trimZeros_fixedDigits_eq (m := digitsValue f.frac) (by exact_mod_cast h)
  rw [fixedDigits_digitsValue hf.digits, fixedDigits_digitsValue hf'.digits, hf.trimmed,
    hf'.trimmed] at htrim
  exact htrim

/-- A date that has been checked has one value for each instant. -/
theorem value_eq_iff {f f' : DateTimeFields} (hf : f.Checked) (hf' : f'.Checked)
    (hzone : f.zone.isSome = f'.zone.isSome) : f.value = f'.value ↔ f.instant = f'.instant := by
  have hparts : ∀ {f : DateTimeFields}, f.Checked →
      f.instant = (86400 * (f.value.days - 305) + f.value.seconds : Int) + fractionValue f.frac ∧
        ⌊fractionValue f.frac⌋ = 0 ∧ 0 ≤ f.value.seconds ∧ f.value.seconds < 86400 := by
    intro f hf
    refine ⟨?_, Int.floor_eq_zero_iff.mpr ⟨?_, fractionValue_lt_one hf.digits⟩, ?_⟩
    · simp only [DateTimeFields.instant, DateTimeFields.value,
        daysFromCivil_eq hf.month.1 hf.month.2]
      push_cast
      ring
    · unfold fractionValue
      positivity
    · simp only [DateTimeFields.value, floorDiv_eq (show (0 : Int) < 86400 by norm_num)]
      omega
  obtain ⟨hf₁, hfloor, hlow, hhigh⟩ := hparts hf
  obtain ⟨hf₁', hfloor', hlow', hhigh'⟩ := hparts hf'
  constructor
  · intro h
    have hfrac : f.frac = f'.frac := congrArg DateTimeValue.frac h
    rw [hf₁, hf₁', h, hfrac]
  · intro h
    rw [hf₁, hf₁'] at h
    -- The fraction is less than one, so the whole seconds are the floor of the instant.
    have hint := congrArg Int.floor h
    rw [Int.floor_intCast_add, Int.floor_intCast_add, hfloor, hfloor'] at hint
    have hdays : f.value.days = f'.value.days := by omega
    have hseconds : f.value.seconds = f'.value.seconds := by omega
    rw [hdays, hseconds, add_right_inj] at h
    have hfrac := fractionValue_inj hf hf' h
    simp only [DateTimeFields.value, DateTimeValue.mk.injEq] at hdays hseconds ⊢
    exact ⟨hdays, hseconds, hfrac, hzone⟩

theorem cutAt_append {c : Char} {xs ys : List Char} (h : ∀ d ∈ xs, d ≠ c) :
    cutAt c (xs ++ c :: ys) = (xs, some ys) := by
  have hpos : ∀ d ∈ xs, (d != c) = true := fun d hd => bne_iff_ne.mpr (h d hd)
  rw [cutAt, dropWhile_append_of_pos hpos, takeWhile_append_of_pos hpos]
  simp

/-! ## Texts of dates -/

/-- Two digits. -/
structure TwoDigits where
  tens : Char
  ones : Char
  isDigit_tens : isDigit tens = true
  isDigit_ones : isDigit ones = true

def TwoDigits.text (p : TwoDigits) : List Char :=
  [p.tens, p.ones]

def TwoDigits.value (p : TwoDigits) : Nat :=
  digitsValue p.text

/-- A time zone as it is written: `Z`, or a sign, hours and minutes. -/
inductive ZoneText
  | utc
  | offset (west : Bool) (hours minutes : TwoDigits)

def ZoneText.text : ZoneText → List Char
  | .utc => ['Z']
  | .offset west hours minutes =>
    (if west then '-' else '+') :: (hours.text ++ ':' :: minutes.text)

/-- By how many minutes the local time is ahead of UTC. -/
def ZoneText.ahead : ZoneText → Int
  | .utc => 0
  | .offset west hours minutes =>
    (if west then -1 else 1) * (60 * hours.value + minutes.value)

/-- The parts of `-?YYYY-MM-DDThh:mm:ss(.s+)?(Z|(+|-)hh:mm)`. The fraction is empty where
    there is no point. -/
structure DateTimeText where
  negative : Bool
  year : List Char
  month : TwoDigits
  day : TwoDigits
  hour : TwoDigits
  minute : TwoDigits
  second : TwoDigits
  frac : List Char
  zone : ZoneText
  allDigits_year : allDigits year = true
  isDigit_frac : ∀ c ∈ frac, isDigit c = true

namespace DateTimeText

variable (x : DateTimeText)

def fracText : List Char :=
  if x.frac = [] then [] else '.' :: x.frac

/-- The text that has these parts. -/
def text : List Char :=
  (if x.negative then ['-'] else []) ++ (x.year ++ '-' :: (x.month.text ++ '-' :: (x.day.text ++
    'T' :: (x.hour.text ++ ':' :: (x.minute.text ++ ':' :: (x.second.text ++
      (x.fracText ++ x.zone.text)))))))

/-- The year, of which there is one numbered zero. -/
def yearValue : Int :=
  (if x.negative then -1 else 1) * digitsValue x.year

/-- The instant that is written, in seconds of UTC: the day, the time of day with its
    fraction, less what the local time is ahead. -/
def instant : ℚ :=
  86400 * dayNumber x.yearValue x.month.value x.day.value + 3600 * x.hour.value +
    60 * x.minute.value + x.second.value + fractionValue x.frac - 60 * x.zone.ahead

/-- What is read of it. -/
def fields : DateTimeFields :=
  ⟨x.yearValue, x.month.value, x.day.value, x.hour.value, x.minute.value, x.second.value,
    trimZeros x.frac, some (60 * x.zone.ahead)⟩

end DateTimeText

theorem TwoDigits.twoDigits_text (p : TwoDigits) : twoDigits p.text = some p.value := by
  simp [twoDigits, TwoDigits.text, TwoDigits.value, allDigits, p.isDigit_tens, p.isDigit_ones]

/-- What is read as two digits is two digits. -/
theorem exists_of_twoDigits {n : Nat} (h : twoDigits cs = some n) :
    ∃ p : TwoDigits, p.text = cs := by
  rw [twoDigits, Option.ite_none_right_eq_some] at h
  obtain ⟨⟨hlen, hdigits⟩, -⟩ := h
  obtain ⟨c, d, rfl⟩ := List.length_eq_two.mp hlen
  simp only [allDigits, isEmpty_cons, Bool.not_false, all_cons, all_nil, Bool.and_true,
    Bool.true_and, Bool.and_eq_true] at hdigits
  exact ⟨⟨c, d, hdigits.1, hdigits.2⟩, rfl⟩

theorem ZoneText.eq_of_readZone (z : ZoneText) {o : Option Int} (h : readZone z.text = some o) :
    o = some (60 * z.ahead) := by
  cases z with
  | utc => exact (Option.some.inj h).symm
  | offset west hours minutes =>
    have hhours := hours.twoDigits_text
    have hminutes := minutes.twoDigits_text
    simp only [TwoDigits.text] at hhours hminutes
    cases west <;>
      simp [readZone, ZoneText.text, TwoDigits.text, hhours, hminutes] at h <;>
      simp [← h.2, ZoneText.ahead] <;> ring

/-- What is read as a time zone is one. -/
theorem exists_of_readZone {o : Int} (h : readZone cs = some (some o)) :
    ∃ z : ZoneText, z.text = cs := by
  rw [readZone] at h
  by_cases hnil : cs = []
  · rw [if_pos hnil] at h
    cases h
  rw [if_neg hnil] at h
  by_cases hz : cs = ['Z']
  · exact ⟨.utc, hz.symm⟩
  rw [if_neg hz] at h
  by_cases hform : cs.length = 6 ∧ (cs[0]? = some '+' ∨ cs[0]? = some '-') ∧ cs[3]? = some ':'
  · rw [if_pos hform] at h
    obtain ⟨hlen, hsign, hcolon⟩ := hform
    simp only [Option.bind_eq_bind, Option.bind_eq_some_iff] at h
    obtain ⟨th, hth, tm, htm, -⟩ := h
    obtain ⟨hours, hhours⟩ := exists_of_twoDigits hth
    obtain ⟨minutes, hminutes⟩ := exists_of_twoDigits htm
    match cs, hlen with
    | [c₀, c₁, c₂, c₃, c₄, c₅], _ =>
      simp only [getElem?_cons_zero, getElem?_cons_succ, Option.some.injEq] at hsign hcolon
      refine ⟨.offset (c₀ = '-') hours minutes, ?_⟩
      rw [ZoneText.text, hhours, hminutes]
      rcases hsign with rfl | rfl <;> simp [hcolon]
  · rw [if_neg hform] at h
    cases h

namespace DateTimeText

variable {x : DateTimeText}

theorem readFraction_text :
    readFraction (x.fracText ++ x.zone.text) = some (trimZeros x.frac, x.zone.text) := by
  -- A time zone begins with no digit and no point.
  obtain ⟨c, rest, hzone, hdigit, hpoint⟩ :
      ∃ c rest, x.zone.text = c :: rest ∧ isDigit c = false ∧ c ≠ '.' := by
    rcases x.zone with _ | ⟨west, hours, minutes⟩
    · exact ⟨_, _, rfl, by decide, by decide⟩
    · refine ⟨_, _, rfl, ?_, ?_⟩ <;> cases west <;> decide
  rw [hzone, fracText]
  split_ifs with hfrac
  · rw [nil_append, hfrac, readFraction]
    · rfl
    · rintro _ ⟨⟩
      exact hpoint rfl
  · have hall : ∀ c ∈ x.frac, isDigit c = true := x.isDigit_frac
    rw [cons_append, readFraction, takeWhile_append_of_pos hall, dropWhile_append_of_pos hall,
      takeWhile_cons_of_neg (by simp [hdigit]), dropWhile_cons_of_neg (by simp [hdigit]),
      append_nil, if_neg (by simpa using hfrac)]

/-- What stands in the text is what is read. -/
theorem eq_of_readDateTime {f : DateTimeFields} (h : readDateTime x.text = some f) :
    f = x.fields := by
  obtain ⟨hne, hdigits⟩ : x.year ≠ [] ∧ ∀ c ∈ x.year, isDigit c = true := by
    simpa [allDigits] using x.allDigits_year
  have hminus : ∀ c ∈ x.year, c ≠ '-' := by
    rintro c hc rfl
    exact absurd (hdigits _ hc) (by decide)
  obtain ⟨c, cs, hyear⟩ := exists_cons_of_ne_nil hne
  have hneg : (x.text.head? == some '-') = x.negative := by
    rw [text, hyear]
    cases x.negative
    · simpa using hminus c (by simp [hyear])
    · simp
  have hbody : (if x.negative then x.text.tail else x.text) =
      x.year ++ '-' :: (x.month.text ++ '-' :: (x.day.text ++ 'T' :: (x.hour.text ++
        ':' :: (x.minute.text ++ ':' :: (x.second.text ++ (x.fracText ++ x.zone.text)))))) := by
    rw [text]
    cases x.negative <;> rfl
  have hmonth := x.month.twoDigits_text
  have hday := x.day.twoDigits_text
  have hhour := x.hour.twoDigits_text
  have hminute := x.minute.twoDigits_text
  have hsecond := x.second.twoDigits_text
  rw [readDateTime] at h
  simp only [hneg, hbody, cutAt_append hminus, TwoDigits.text, cons_append, nil_append] at *
  simp [hmonth, hday, hhour, hminute, hsecond, readFraction_text] at h
  obtain ⟨-, -, -, -, h⟩ := h
  obtain ⟨o, ho, hf⟩ := Option.bind_eq_some_iff.mp h
  rw [← Option.some.inj hf, fields, yearValue, x.zone.eq_of_readZone ho]
  cases x.negative <;> simp

theorem instant_fields (x : DateTimeText) : x.fields.instant = x.instant := by
  have hfrac : fractionValue (trimZeros x.frac) = fractionValue x.frac := by
    rw [fractionValue, fractionValue, div_eq_div_iff (by positivity) (by positivity)]
    exact_mod_cast digitsValue_trimZeros x.frac
  simp only [DateTimeFields.instant, fields, instant, hfrac, Option.getD_some]
  push_cast
  ring

end DateTimeText

/-- A stretch of a text up to a known character. -/
theorem drop_eq_take_append {n k : Nat} {c : Char} (h : cs[n + k]? = some c) :
    cs.drop n = (cs.drop n).take k ++ c :: cs.drop (n + k + 1) := by
  obtain ⟨hlt, hc⟩ := List.getElem?_eq_some_iff.mp h
  rw [← hc, ← drop_eq_getElem_cons hlt, ← drop_drop, take_append_drop]

theorem exists_of_readFraction {ds rest : List Char} (h : readFraction cs = some (ds, rest)) :
    ∃ frac, (∀ c ∈ frac, isDigit c = true) ∧
      cs = (if frac = [] then [] else '.' :: frac) ++ rest := by
  unfold readFraction at h
  split at h
  · rename_i cs
    split at h
    · cases h
    · rename_i hne
      cases h
      refine ⟨cs.takeWhile isDigit, fun c hc => mem_takeWhile_imp hc, ?_⟩
      rw [if_neg (by simpa using hne), cons_append, takeWhile_append_dropWhile]
  · cases h
    exact ⟨[], nofun, rfl⟩

/-- What is read with a time zone has the parts. -/
theorem exists_of_readDateTime {f : DateTimeFields} (h : readDateTime cs = some f)
    (hzone : f.zone.isSome = true) : ∃ x : DateTimeText, x.text = cs := by
  simp only [readDateTime, Option.bind_eq_bind, Option.bind_eq_some_iff,
    Option.ite_none_left_eq_some] at h
  obtain ⟨rest, hrest, hyear, hmarks, month, hmonth, day, hday, hour, hhour, minute, hminute,
    second, hsecond, ⟨ds, rest'⟩, hfrac, -, -, -, zone, hread, h⟩ := h
  cases h
  obtain ⟨o, rfl⟩ := Option.isSome_iff_exists.mp hzone
  simp only [not_or, not_not] at hmarks hyear
  obtain ⟨-, h₂, h₅, h₈, h₁₁⟩ := hmarks
  obtain ⟨pmonth, hpmonth⟩ := exists_of_twoDigits hmonth
  obtain ⟨pday, hpday⟩ := exists_of_twoDigits hday
  obtain ⟨phour, hphour⟩ := exists_of_twoDigits hhour
  obtain ⟨pminute, hpminute⟩ := exists_of_twoDigits hminute
  obtain ⟨psecond, hpsecond⟩ := exists_of_twoDigits hsecond
  obtain ⟨frac, hdigits, htail⟩ := exists_of_readFraction hfrac
  obtain ⟨z, hz⟩ := exists_of_readZone hread
  obtain ⟨year, hsplit⟩ : ∃ year,
      cutAt '-' (if (cs.head? == some '-') = true then cs.tail else cs) = (year, some rest) :=
    ⟨_, Prod.ext rfl hrest⟩
  have hcut := cutAt_some hsplit
  rw [hsplit] at hyear
  refine ⟨⟨cs.head? == some '-', year, pmonth, pday, phour, pminute, psecond, frac, z,
    by simpa using hyear.2.2.1, hdigits⟩, ?_⟩
  -- The reader cuts at fixed places; put together, the pieces are the text again.
  have hbody : rest = pmonth.text ++ '-' :: (pday.text ++ 'T' :: (phour.text ++
      ':' :: (pminute.text ++ ':' :: (psecond.text ++
        ((if frac = [] then [] else '.' :: frac) ++ z.text))))) := by
    have hlast : (rest.drop 12).take 2 ++ rest.drop 14 = rest.drop 12 := by
      rw [← drop_drop (i := 2) (j := 12), take_append_drop]
    rw [hpmonth, hpday, hphour, hpminute, hpsecond, hz, ← htail, hlast,
      ← drop_eq_take_append (n := 9) (k := 2) h₁₁, ← drop_eq_take_append (n := 6) (k := 2) h₈,
      ← drop_eq_take_append (n := 3) (k := 2) h₅]
    exact drop_eq_take_append (n := 0) (k := 2) h₂
  rw [DateTimeText.text, DateTimeText.fracText]
  dsimp only
  rw [← hbody, ← hcut]
  cases cs with
  | nil => rfl
  | cons c cs => by_cases hc : c = '-' <;> simp [hc]

/-- Every date that is accepted with a time zone has the parts of one, dates with a time
    zone are equal exactly when they denote one instant, and the days are counted one after
    another. -/
theorem dateTimes_equal_iff :
    (∀ cs v, parseXSDDateTime cs = some v → v.timezone = true →
      ∃ x : DateTimeText, x.text = cs) ∧
    (∀ (l m : LiteralOf anyChar) (x y : DateTimeText),
      l.kind.datatypeText = xsd "dateTime" → m.kind.datatypeText = xsd "dateTime" →
      l.lexical.toList = x.text → m.lexical.toList = y.text →
      (parseXSDDateTime x.text).isSome = true → (parseXSDDateTime y.text).isSome = true →
      (valueEqual l m = true ↔ x.instant = y.instant)) ∧
    ∀ (y : Int) (m d : Nat), 1 ≤ m → m ≤ 12 → 1 ≤ d → d ≤ daysInMonth y m →
      daysFromCivil (nextDay y m d).1 (nextDay y m d).2.1 (nextDay y m d).2.2 =
        daysFromCivil y m d + 1 := by
  refine ⟨?_, ?_, ?_⟩
  · intro cs v hparse hzone
    obtain ⟨f, hf, rfl⟩ := Option.map_eq_some_iff.mp hparse
    exact exists_of_readDateTime hf hzone
  · intro l m x y hl hm hx hy hxs hys
    have hread : ∀ {z : DateTimeText}, (parseXSDDateTime z.text).isSome = true →
        readDateTime z.text = some z.fields := by
      intro z hz
      obtain ⟨f, hf⟩ := Option.isSome_iff_exists.mp (Option.isSome_map.symm.trans hz)
      rw [hf, DateTimeText.eq_of_readDateTime hf]
    have hvalue : ∀ {z : DateTimeText}, readDateTime z.text = some z.fields →
        valueOf (xsd "dateTime") z.text = some (.dateTime z.fields.value) := by
      intro z hz
      have hof : valueOf (xsd "dateTime") z.text = (parseXSDDateTime z.text).map .dateTime := rfl
      rw [hof, parseXSDDateTime, hz]
      rfl
    have htag : ∀ {k : LiteralKind anyChar}, k.datatypeText = xsd "dateTime" →
        k.tagAndDir = ([], none) := fun hk => tagAndDir_eq (by rw [hk]; decide)
    have hfx := hread hxs
    have hfy := hread hys
    -- Equality goes by the value key, and the key of a date with a zone is its instant.
    rw [valueEqual_iff (by simp [IsNaN, hl, hx, hvalue hfx]), ← x.instant_fields,
      ← y.instant_fields,
      ← value_eq_iff (checked_of_readDateTime hfx) (checked_of_readDateTime hfy) rfl]
    simp [valueKey, hl, hm, hx, hy, hvalue hfx, hvalue hfy, htag hl, htag hm, denoted]
  · intro y m d hm hm' _ hd
    have hnext : 1 ≤ (nextDay y m d).2.1 ∧ (nextDay y m d).2.1 ≤ 12 := by
      unfold nextDay
      split_ifs <;> dsimp only <;> omega
    rw [daysFromCivil_eq hm hm', daysFromCivil_eq hnext.1 hnext.2, dayNumber_nextDay hm hm' hd]
    ring

/-- `xsd:dateTime` with this text. -/
def dateTimeLiteral (lexical : String) : LiteralOf anyChar :=
  ⟨lexical, .typed ⟨xsd "dateTime", by decide⟩ nofun⟩

/-- Noon of the first of March of 2000 in UTC, and the same an hour ahead. -/
theorem dateTimes_equal_noon : valueEqual (dateTimeLiteral "2000-03-01T12:00:00Z")
    (dateTimeLiteral "2000-03-01T13:00:00+01:00") = true := by
  let pair (c d : Char) (h : (isDigit c && isDigit d) = true) : TwoDigits :=
    ⟨c, d, (Bool.and_eq_true_iff.mp h).1, (Bool.and_eq_true_iff.mp h).2⟩
  let date (hour : TwoDigits) (zone : ZoneText) : DateTimeText :=
    ⟨false, "2000".toList, pair '0' '3' rfl, pair '0' '1' rfl, hour, pair '0' '0' rfl,
      pair '0' '0' rfl, [], zone, rfl, nofun⟩
  refine (dateTimes_equal_iff.2.1 _ _ (date (pair '1' '2' rfl) .utc)
    (date (pair '1' '3' rfl) (.offset false (pair '0' '1' rfl) (pair '0' '0' rfl)))
    rfl rfl (by decide) (by decide) (by decide) (by decide)).mpr ?_
  decide +kernel

end GoRdf
