import Mathlib.Data.Nat.Log
import Mathlib.Data.Nat.Prime.Pow
import Mathlib.NumberTheory.Padics.PadicVal.Basic
import Mathlib.Tactic.Ring
import GoRdf.Core.Number

/-!
# Decimals in an `int64`

The fast path for decimals against the exact one.

A scaled decimal is its mantissa over a power of ten. Every step of the fast path
either gives the scaled decimal of the exact result or declines, and the guards
keep every mantissa within an `int64`: digits are read up to `10 ^ 17`, a mantissa
is brought to a larger scale only below that, and a product is looked at in full
before it is kept.

Both paths write a number as an integer part and the fractional digits without the
zeros at their end. The number of digits each writes before it takes the zeros away
does not matter: more digits are more zeros.

How many digits there are is found from the size of the denominator, by a quotient of
`float64`s. It is off by less than one for denominators of up to `2 ^ 51` bits, which is
more than fits into the memory of a Go program.

## Main definitions

* `Scaled.value`: The number a scaled decimal stands for.
* `Addressable`: A number that fits into memory.
* `ExactLiteral`: The values of integer and decimal literals.
* `fixedDigits`: As many digits of a number as are asked for.

## Theorems

* `scaledOf_spec`, `rescale_spec`, `addScaled_spec`, `mulScaled_spec`: The steps of
  the fast path.
* `five_pow_bounds`, `guess_near`: The logarithm of five, and the exponent that is guessed
  with it.
* `finiteDigits_pow_mul_pow`, `exists_of_finiteDigits`: The finite expansions.
* `formatRat_eq`, `Scaled.string_eq`: What the two paths write.
* `scaledArithmetic_exact`: The fast path writes what the exact one writes.
-/

namespace GoRdf

open Lib List Option

variable {c : Char} {cs : List Char} {k n : Nat} {s x y : Scaled} {a : Numeric}

/-! ## Runs of digits -/

theorem digitsValue_concat (cs : List Char) (c : Char) :
    digitsValue (cs ++ [c]) = digitsValue cs * 10 + (c.toNat - '0'.toNat) := by
  simp [digitsValue, foldl_append, mul_comm]

theorem digitsValue_append (xs ys : List Char) :
    digitsValue (xs ++ ys) = digitsValue xs * 10 ^ ys.length + digitsValue ys := by
  induction ys using List.reverseRecOn with
  | nil => simp [digitsValue]
  | append_singleton ys c ih =>
    rw [← append_assoc, digitsValue_concat, digitsValue_concat, ih, length_append,
      length_singleton]
    ring

theorem digitsValue_cons (c : Char) (cs : List Char) : digitsValue (c :: cs) =
    (c.toNat - '0'.toNat) * 10 ^ cs.length + digitsValue cs := by
  rw [← singleton_append, digitsValue_append]
  simp [digitsValue]

theorem digit_lt (h : isDigit c = true) : c.toNat - '0'.toNat < 10 := by
  simp only [isDigit, Bool.and_eq_true, decide_eq_true_eq] at h
  have hle : c.toNat ≤ '9'.toNat := h.2
  simp only [Char.reduceToNat] at hle ⊢
  omega

theorem digitsValue_lt (h : ∀ c ∈ cs, isDigit c = true) : digitsValue cs < 10 ^ cs.length := by
  induction cs using List.reverseRecOn with
  | nil => simp [digitsValue]
  | append_singleton cs c ih =>
    have hc := digit_lt (h c (by simp))
    have hcs := ih fun d hd => h d (by simp [hd])
    rw [digitsValue_concat, length_append, length_singleton]
    omega

/-- As many of the last digits of a number as are asked for. -/
def fixedDigits : Nat → Nat → List Char
  | 0, _ => []
  | k + 1, n => fixedDigits k (n / 10) ++ [Nat.digitChar (n % 10)]

/-- Padding takes off the last digit. -/
theorem padZeros_toDigits (k n : Nat) : padZeros (k + 2) (Nat.toDigits 10 n) =
    padZeros (k + 1) (Nat.toDigits 10 (n / 10)) ++ [Nat.digitChar (n % 10)] := by
  rw [Nat.toDigits_eq_if (b := 10) (n := n) (by norm_num)]
  unfold padZeros
  split_ifs with hn
  · rw [Nat.div_eq_of_lt hn, Nat.mod_eq_of_lt hn, Nat.toDigits_of_lt_base (by norm_num),
      length_singleton, length_singleton, show k + 2 - 1 = k + 1 by omega,
      replicate_succ']
    rfl
  · rw [length_append, length_singleton, append_assoc]
    congr 2
    omega

/-- A padded number is its part above the digits, and the digits. -/
theorem padZeros_toDigits_split (k n : Nat) : padZeros (k + 1) (Nat.toDigits 10 n) =
    Nat.toDigits 10 (n / 10 ^ k) ++ fixedDigits k n := by
  induction k generalizing n with
  | zero =>
    have hlen := @Nat.length_toDigits_pos 10 n
    simp [padZeros, fixedDigits, show 1 - (Nat.toDigits 10 n).length = 0 by omega]
  | succ k ih =>
    rw [padZeros_toDigits, ih, fixedDigits, append_assoc, Nat.div_div_eq_div_mul, pow_succ']

/-- A number of few digits is padded to its digits. -/
theorem padZeros_toDigits_of_lt (h : n < 10 ^ (k + 1)) :
    padZeros (k + 1) (Nat.toDigits 10 n) = fixedDigits (k + 1) n := by
  induction k generalizing n with
  | zero =>
    rw [pow_one] at h
    rw [Nat.toDigits_of_lt_base h]
    simp [padZeros, fixedDigits, Nat.mod_eq_of_lt h]
  | succ k ih =>
    have hdiv : n / 10 < 10 ^ (k + 1) := by
      omega
    rw [padZeros_toDigits, ih hdiv]
    rfl

theorem length_fixedDigits (k n : Nat) : (fixedDigits k n).length = k := by
  induction k generalizing n with
  | zero => rfl
  | succ k ih => rw [fixedDigits, length_append, ih, length_singleton]

/-- Digits above those asked for do not matter. -/
theorem fixedDigits_mod (k n : Nat) : fixedDigits k (n % 10 ^ k) = fixedDigits k n := by
  induction k generalizing n with
  | zero => rfl
  | succ k ih =>
    have hdiv : n % 10 ^ (k + 1) / 10 = n / 10 % 10 ^ k := by
      rw [pow_succ', Nat.mod_mul_right_div_self]
    have hmod : n % 10 ^ (k + 1) % 10 = n % 10 := Nat.mod_mod_of_dvd n (dvd_pow_self 10 (by omega))
    rw [fixedDigits, fixedDigits, hdiv, hmod, ih]

theorem isDigit_digitChar {d : Nat} (h : d < 10) : isDigit (Nat.digitChar d) = true := by
  interval_cases d <;> rfl

theorem isDigit_of_mem_fixedDigits (h : c ∈ fixedDigits k n) : isDigit c = true := by
  induction k generalizing n with
  | zero => simp [fixedDigits] at h
  | succ k ih =>
    rcases mem_append.mp h with h | h
    · exact ih h
    · rw [mem_singleton.mp h]
      exact isDigit_digitChar (Nat.mod_lt _ (by norm_num))

theorem isDigit_of_mem_toDigits (h : c ∈ Nat.toDigits 10 n) : isDigit c = true := by
  have hc := Nat.isDigit_of_mem_toDigits (by norm_num) (by norm_num) h
  simp only [Char.isDigit, Bool.and_eq_true, decide_eq_true_eq] at hc
  simp only [isDigit, Bool.and_eq_true, decide_eq_true_eq]
  exact ⟨hc.1, hc.2⟩

/-! ## Zeros at the end -/

/-- More digits are more zeros. -/
theorem trimZeros_fixedDigits (k j n : Nat) :
    trimZeros (fixedDigits (k + j) (n * 10 ^ j)) = trimZeros (fixedDigits k n) := by
  induction j with
  | zero => simp
  | succ j ih =>
    have hdiv : n * 10 ^ (j + 1) / 10 = n * 10 ^ j := by
      rw [pow_succ, ← mul_assoc]
      omega
    have hmod : n * 10 ^ (j + 1) % 10 = 0 := by
      rw [pow_succ, ← mul_assoc]
      omega
    rw [← add_assoc, fixedDigits, hdiv, hmod]
    simpa [trimZeros] using ih

/-- Digits of one fraction, without their zeros. -/
theorem trimZeros_fixedDigits_eq {j m : Nat} (h : m * 10 ^ k = n * 10 ^ j) :
    trimZeros (fixedDigits j m) = trimZeros (fixedDigits k n) := by
  rw [← trimZeros_fixedDigits j k m, ← trimZeros_fixedDigits k j n, h, add_comm]

theorem trimZeros_append_of_ne {xs ys : List Char} (hc : c ≠ '0') :
    trimZeros (xs ++ c :: ys) = xs ++ c :: trimZeros ys := by
  unfold trimZeros
  rw [reverse_append, reverse_cons, append_assoc]
  by_cases hys : ys.reverse.dropWhile (· == '0') = []
  · rw [dropWhile_append]
    simp [hc]
  · rw [dropWhile_append, if_neg (by simpa using hys)]
    simp

theorem mem_of_mem_trimZeros (h : c ∈ trimZeros cs) : c ∈ cs := by
  unfold trimZeros at h
  rw [mem_reverse] at h
  exact mem_reverse.mp ((dropWhile_sublist _).subset h)

/-- An integer part and fractional digits, as both paths write them. -/
def decimalText (int : List Char) (frac : List Char) : List Char :=
  if trimZeros frac = [] then int else int ++ '.' :: trimZeros frac

/-- The sign both paths write: none before a zero. -/
def signedText (negative : Prop) [Decidable negative] (text : List Char) : List Char :=
  if negative ∧ text ≠ ['0'] then '-' :: text else text

/-! ## What the fast path writes -/

/-- The number a scaled decimal stands for. -/
def Scaled.value (s : Scaled) : ℚ :=
  s.m / 10 ^ s.scale

theorem ok_bind {ε α β : Type} (a : α) (f : α → Except ε β) : (Except.ok a >>= f) = f a := rfl

theorem int64_eq_ok {v : Int} (h : |v| < 2 ^ 63) : int64 v = .ok v := by
  have hbounds := abs_lt.mp h
  unfold int64
  rw [if_pos ⟨by omega, hbounds.2⟩]

theorem abs64_eq_ok {v : Int} (h : |v| < 2 ^ 63) : abs64 v = .ok |v| := by
  unfold abs64
  split_ifs with hv
  · rw [int64_eq_ok (by rwa [abs_neg]), abs_of_neg hv]
  · rw [abs_of_nonneg (not_lt.mp hv)]

theorem scaledText_eq (scale n : Nat) : scaledText scale (Nat.toDigits 10 n) =
    decimalText (Nat.toDigits 10 (n / 10 ^ scale)) (fixedDigits scale n) := by
  unfold scaledText
  by_cases hscale : 0 < scale
  · -- the padded digits are cut where the fraction starts
    rw [if_pos hscale, padZeros_toDigits_split]
    dsimp only
    have hlen : (Nat.toDigits 10 (n / 10 ^ scale) ++ fixedDigits scale n).length - scale =
        (Nat.toDigits 10 (n / 10 ^ scale)).length := by
      rw [length_append, length_fixedDigits, Nat.add_sub_cancel]
    rw [hlen, take_left, drop_left]
    rfl
  · have hzero : scale = 0 := by omega
    rw [hzero, pow_zero, Nat.div_one]
    rfl

/-- What `scaled.String` writes. -/
theorem Scaled.string_eq (h : |s.m| < 2 ^ 63) :
    s.string = .ok (signedText (s.m < 0) (decimalText (Nat.toDigits 10 (s.m.natAbs / 10 ^ s.scale))
      (fixedDigits s.scale s.m.natAbs))) := by
  have hnat : (|s.m|).toNat = s.m.natAbs := by
    rw [Int.abs_eq_natAbs, Int.toNat_natCast]
  unfold Scaled.string
  rw [abs64_eq_ok h, ← scaledText_eq, ← hnat]
  rfl

/-! ## What the exact path writes -/

/-- The logarithm of five to 56 binary places. -/
theorem five_pow_bounds :
    2 ^ 167312552046652971 ≤ 5 ^ 2 ^ 56 ∧ 5 ^ 2 ^ 56 < 2 ^ 167312552046652972 := by
  have hlow : 2 ^ 128 ≤ ((squareDigits 0 128)^[56] (5, 0)).1 ∧
      128 + ((squareDigits 0 128)^[56] (5, 0)).2 = 167312552046652971 := by decide +kernel
  have hhigh : ((squareDigits 1 128)^[56] (5, 0)).1 < 2 ^ 129 ∧
      129 + ((squareDigits 1 128)^[56] (5, 0)).2 = 167312552046652972 := by decide +kernel
  constructor
  · rw [← hlow.2, pow_add]
    exact (Nat.mul_le_mul_right _ hlow.1).trans (iterate_squareDigits_le 5 128 56)
  · rw [← hhigh.2, pow_add]
    exact (le_iterate_squareDigits 5 128 56).trans_lt
      (Nat.mul_lt_mul_of_pos_right hhigh.1 (Nat.two_pow_pos _))

/-- The exponent of a power of five, against the place of its first binary digit. -/
theorem exponent_bounds {b bits : Nat} (hlow : 2 ^ bits ≤ 5 ^ b)
    (hhigh : 5 ^ b < 2 ^ (bits + 1)) :
    bits * 2 ^ 56 ≤ 167312552046652972 * b ∧ 167312552046652971 * b < (bits + 1) * 2 ^ 56 := by
  have hswap : (5 ^ b) ^ 2 ^ 56 = (5 ^ 2 ^ 56) ^ b := by rw [← pow_mul, ← pow_mul, mul_comm]
  constructor
  · refine (Nat.pow_le_pow_iff_right (a := 2) (by norm_num)).mp ?_
    calc 2 ^ (bits * 2 ^ 56) = (2 ^ bits) ^ 2 ^ 56 := pow_mul _ _ _
      _ ≤ (5 ^ b) ^ 2 ^ 56 := Nat.pow_le_pow_left hlow _
      _ = (5 ^ 2 ^ 56) ^ b := hswap
      _ ≤ (2 ^ 167312552046652972) ^ b := Nat.pow_le_pow_left five_pow_bounds.2.le b
      _ = _ := (pow_mul _ _ _).symm
  · refine (Nat.pow_lt_pow_iff_right (a := 2) (by norm_num)).mp ?_
    calc 2 ^ (167312552046652971 * b) = (2 ^ 167312552046652971) ^ b := pow_mul _ _ _
      _ ≤ (5 ^ 2 ^ 56) ^ b := Nat.pow_le_pow_left five_pow_bounds.1 b
      _ = (5 ^ b) ^ 2 ^ 56 := hswap.symm
      _ < (2 ^ (bits + 1)) ^ 2 ^ 56 := Nat.pow_lt_pow_left hhigh (by positivity)
      _ = _ := (pow_mul _ _ _).symm

/-- The quotient that is rounded to the guess, against the quotient of the logarithm. -/
theorem guess_error (log2 : Log2Five) {bits : Nat} (hpos : 0 < bits) (hbits : bits < 2 ^ 51) :
    ∃ x : ℚ, 0 ≤ x ∧ log2.guess bits = ⌊x⌋.toNat ∧
      x * (5228517251457904 / 2 ^ 51) * (1 - 1 / 2 ^ 53) ≤ bits ∧
      bits ≤ x * (5228517251457906 / 2 ^ 51) * (1 + 1 / 2 ^ 53) := by
  have hnear := abs_le.mp log2.near
  have hval : 0 < log2.value := by linarith [hnear.1]
  have hexact : binary64.roundSigned (bits : ℚ) = bits := by
    exact_mod_cast FloatFormat.roundSigned_intCast (F := binary64) (i := bits) (by decide)
      (by rw [Int.natAbs_natCast]; exact hbits.trans (by decide))
  have hq : 0 ≤ (bits : ℚ) / log2.value := by positivity
  -- the quotient is not below the range of full digits
  have hnormal : (2 : ℚ) ^ (-2 : ℤ) ≤ |(bits : ℚ) / log2.value| := by
    have hone : (1 : ℚ) ≤ bits := by exact_mod_cast hpos
    rw [abs_of_nonneg hq, le_div_iff₀ hval]
    norm_num at hnear ⊢
    linarith [hnear.2]
  have hround : binary64.Near (bits / log2.value) :=
    FloatFormat.near_of_normal (by decide)
      ((zpow_le_zpow_right₀ (by norm_num) (by decide)).trans
        (FloatFormat.zpow_le_abs_roundSigned (F := binary64) (by decide) (by decide) hnormal))
  have hx : 0 ≤ binary64.roundSigned (bits / log2.value) := by
    rw [FloatFormat.roundSigned, if_neg (not_lt.mpr hq)]
    exact FloatFormat.roundPos_nonneg hq
  refine ⟨binary64.roundSigned (bits / log2.value), hx, by rw [Log2Five.guess, hexact], ?_⟩
  unfold FloatFormat.Near at hround
  rw [abs_of_nonneg hx, show binary64.digits = 53 from rfl] at hround
  obtain ⟨hlow, hhigh⟩ := abs_le.mp hround
  have hcancel : (bits : ℚ) / log2.value * log2.value = bits := div_mul_cancel₀ _ hval.ne'
  generalize binary64.roundSigned (bits / log2.value) = x at hx hlow hhigh
  generalize (bits : ℚ) / log2.value = q at hq hlow hhigh hcancel
  rw [← hcancel]
  constructor
  · calc x * (5228517251457904 / 2 ^ 51) * (1 - 1 / 2 ^ 53)
        = x * (1 - 1 / 2 ^ 53) * (5228517251457904 / 2 ^ 51) := by ring
      _ ≤ q * log2.value := mul_le_mul (by linarith) (by linarith [hnear.1]) (by positivity) hq
  · calc q * log2.value
        ≤ x * (1 + 1 / 2 ^ 53) * (5228517251457906 / 2 ^ 51) :=
          mul_le_mul (by linarith) (by linarith [hnear.2]) hval.le (by positivity)
      _ = x * (5228517251457906 / 2 ^ 51) * (1 + 1 / 2 ^ 53) := by ring

/-- The guess is the exponent of a power of five, or next to it. -/
theorem guess_near (log2 : Log2Five) {b bits : Nat} (hpos : 0 < bits) (hbits : bits < 2 ^ 51)
    (hlow : 2 ^ bits ≤ 5 ^ b) (hhigh : 5 ^ b < 2 ^ (bits + 1)) :
    log2.guess bits ≤ b + 1 ∧ b ≤ log2.guess bits + 1 := by
  obtain ⟨x, hx, hguess, hxlow, hxhigh⟩ := guess_error log2 hpos hbits
  obtain ⟨hle, hlt⟩ := exponent_bounds hlow hhigh
  have hleq : (bits : ℚ) * 2 ^ 56 ≤ 167312552046652972 * b := by exact_mod_cast hle
  have hltq : 167312552046652971 * (b : ℚ) < (bits + 1) * 2 ^ 56 := by exact_mod_cast hlt
  have hb : (b : ℚ) ≤ 2 ^ 50 := by
    have hbitsq : (bits : ℚ) + 1 ≤ 2 ^ 51 := by exact_mod_cast hbits
    linarith
  have hfloor := Int.floor_le x
  have hup : ⌊x⌋ < b + 2 := by
    rw [Int.floor_lt]
    push_cast
    by_contra hnot
    linarith [not_lt.mp hnot]
  have hdown : (b : Int) - 1 ≤ ⌊x⌋ := by
    rw [Int.le_floor]
    push_cast
    by_contra hnot
    linarith [not_le.mp hnot]
  rw [hguess]
  omega

/-- A number that a Go program can hold: it takes less than the `2 ^ 48` bytes that the
    heap can address. -/
def Addressable (d : Nat) : Prop :=
  d.size < 2 ^ 51

theorem fiveExponent_pow (log2 : Log2Five) {b : Nat} (hb : b ≠ 0) (hd : Addressable (5 ^ b)) :
    fiveExponent log2 (5 ^ b) = some b := by
  have hfive : 5 ^ 1 ≤ 5 ^ b := Nat.pow_le_pow_right (by norm_num) (by omega)
  have hsize : 2 < (5 ^ b).size := Nat.lt_size.mpr (le_trans (by norm_num) hfive)
  have hlow : 2 ^ ((5 ^ b).size - 1) ≤ 5 ^ b := Nat.lt_size.mp (by omega)
  have hhigh : 5 ^ b < 2 ^ ((5 ^ b).size - 1 + 1) := by
    rw [Nat.sub_add_cancel (by omega)]
    exact Nat.lt_size_self _
  have hbits : (5 ^ b).size - 1 < 2 ^ 51 := (Nat.sub_le _ _).trans_lt hd
  have hguess := guess_near log2 (by omega) hbits hlow hhigh
  have hfind : (fiveExponent log2 (5 ^ b)).isSome = true := by
    have hone : 1 ≤ b := Nat.pos_of_ne_zero hb
    refine find?_isSome.mpr ⟨b, ?_, by simpa using hone⟩
    simp only [mem_cons, not_mem_nil, or_false]
    omega
  -- a candidate that is found is the exponent
  rcases isSome_iff_exists.mp hfind with ⟨c, hc⟩
  have hp := find?_some hc
  simp only [decide_eq_true_eq] at hp
  rw [hc, Nat.pow_right_injective (by norm_num) hp.2]

/-- A divisor of a power of ten is a power of two times a power of five. -/
theorem exists_pow_mul_pow {d : Nat} (hd : d ∣ 10 ^ k) : ∃ a b, d = 2 ^ a * 5 ^ b := by
  rw [show (10 : Nat) = 2 * 5 by norm_num, mul_pow] at hd
  rcases Nat.dvd_mul.mp hd with ⟨x, y, hx, hy, rfl⟩
  rcases (Nat.dvd_prime_pow Nat.prime_two).mp hx with ⟨a, -, rfl⟩
  rcases (Nat.dvd_prime_pow Nat.prime_five).mp hy with ⟨b, -, rfl⟩
  exact ⟨a, b, rfl⟩

theorem pow_mul_pow_dvd (a b : Nat) : 2 ^ a * 5 ^ b ∣ 10 ^ max a b := by
  rw [show (10 : Nat) = 2 * 5 by norm_num, mul_pow]
  exact Nat.mul_dvd_mul (pow_dvd_pow 2 (le_max_left a b)) (pow_dvd_pow 5 (le_max_right a b))

/-- The digits of a finite expansion. -/
theorem finiteDigits_pow_mul_pow (log2 : Log2Five) (a b : Nat)
    (hd : Addressable (2 ^ a * 5 ^ b)) :
    finiteDigits log2 (2 ^ a * 5 ^ b) = some (max a b) := by
  have htwos : padicValNat 2 (2 ^ a * 5 ^ b) = a := by
    have := Fact.mk Nat.prime_five
    rw [padicValNat.mul (by positivity) (by positivity), padicValNat.prime_pow,
      padicValNat_prime_prime_pow b (by norm_num), add_zero]
  unfold finiteDigits
  simp only [htwos, Nat.mul_div_cancel_left (5 ^ b) (Nat.two_pow_pos a)]
  by_cases hzero : b = 0
  · simp [hzero]
  · have hsize : ¬ (5 ^ b).size ≤ 1 := by
      rw [Nat.size_le]
      have hle : 5 ^ 1 ≤ 5 ^ b := Nat.pow_le_pow_right (by norm_num) (by omega)
      omega
    have hle : 5 ^ b ≤ 2 ^ a * 5 ^ b := Nat.le_mul_of_pos_left _ (Nat.two_pow_pos a)
    rw [if_neg hsize, fiveExponent_pow log2 hzero ((Nat.size_le_size hle).trans_lt hd)]
    rfl

/-- No other number has one. -/
theorem exists_of_finiteDigits {log2 : Log2Five} {d : Nat} (hd : 0 < d)
    (h : finiteDigits log2 d = some n) : ∃ a b, d = 2 ^ a * 5 ^ b := by
  have hdvd : 2 ^ padicValNat 2 d ∣ d := pow_padicValNat_dvd
  have hsplit := Nat.mul_div_cancel' hdvd
  have hpos := Nat.div_pos (Nat.le_of_dvd hd hdvd) (Nat.two_pow_pos _)
  unfold finiteDigits at h
  dsimp only at h
  split_ifs at h with hsize
  · have hone : d / 2 ^ padicValNat 2 d = 5 ^ 0 := by
      have hlt := Nat.size_le.mp hsize
      omega
    exact ⟨_, 0, (hone ▸ hsplit).symm⟩
  · rcases map_eq_some_iff.mp h with ⟨b, hb, -⟩
    have hfive := find?_some hb
    simp only [decide_eq_true_eq] at hfive
    exact ⟨_, b, (hfive.2 ▸ hsplit).symm⟩

section

variable {x : ℚ} {m : Int} {k prec : Nat} (hx : x = m / 10 ^ k) (hprec : x.den ∣ 10 ^ prec)

include hx in
/-- The fraction in lowest terms is the fraction. -/
theorem natAbs_mul_den : m.natAbs * x.den = x.num.natAbs * 10 ^ k := by
  have hcross : (m : ℚ) * x.den = x.num * 10 ^ k := by
    have hten : (10 : ℚ) ^ k ≠ 0 := by positivity
    rw [← (eq_div_iff hten).mp hx, mul_right_comm, Rat.mul_den_eq_num]
  have hint : m * x.den = x.num * 10 ^ k := by exact_mod_cast hcross
  have habs := congrArg Int.natAbs hint
  rw [Int.natAbs_mul, Int.natAbs_mul, Int.natAbs_natCast, Int.natAbs_pow] at habs
  exact habs

include hx in
theorem den_dvd_pow : x.den ∣ 10 ^ k := by
  exact x.reduced.symm.dvd_of_dvd_mul_left (Dvd.intro_left _ (natAbs_mul_den hx))

include hx hprec in
/-- What `FloatString` writes, where the digits suffice. -/
theorem floatString_eq : ∃ r, r * 10 ^ k = m.natAbs % 10 ^ k * 10 ^ prec ∧
    floatString x prec = (if x < 0 then ['-'] else []) ++ Nat.toDigits 10 (m.natAbs / 10 ^ k) ++
      if 0 < prec then '.' :: fixedDigits prec r else [] := by
  have hcross := natAbs_mul_den hx
  have hden : 0 < x.den := x.den_pos
  have hten : 0 < 10 ^ k := by positivity
  -- integer part and remainder of the fraction in lowest terms
  have hint : x.num.natAbs / x.den = m.natAbs / 10 ^ k := by
    rw [← Nat.mul_div_mul_right _ _ hten, ← hcross, mul_comm x.den, Nat.mul_div_mul_right _ _ hden]
  have hmod : x.num.natAbs % x.den * 10 ^ k = m.natAbs % 10 ^ k * x.den := by
    rw [← Nat.mul_mod_mul_right, ← Nat.mul_mod_mul_right, hcross, mul_comm x.den]
  have hexact : x.den ∣ x.num.natAbs % x.den * 10 ^ prec := Dvd.dvd.mul_left hprec _
  have hrem : x.num.natAbs % x.den * 10 ^ prec % x.den = 0 := Nat.mod_eq_zero_of_dvd hexact
  have hquot := Nat.div_mul_cancel hexact
  have hlt : x.num.natAbs % x.den * 10 ^ prec / x.den < 10 ^ prec := by
    rw [Nat.div_lt_iff_lt_mul hden, mul_comm (10 ^ prec)]
    exact Nat.mul_lt_mul_of_pos_right (Nat.mod_lt _ hden) (by positivity)
  refine ⟨x.num.natAbs % x.den * 10 ^ prec / x.den, ?_, ?_⟩
  · refine Nat.eq_of_mul_eq_mul_right hden ?_
    calc x.num.natAbs % x.den * 10 ^ prec / x.den * 10 ^ k * x.den
        = x.num.natAbs % x.den * 10 ^ prec / x.den * x.den * 10 ^ k := by ring
      _ = x.num.natAbs % x.den * 10 ^ k * 10 ^ prec := by rw [hquot]; ring
      _ = m.natAbs % 10 ^ k * 10 ^ prec * x.den := by rw [hmod]; ring
  · have hup : ¬ x.den ≤ 2 * 0 := by omega
    unfold floatString
    simp only [hrem, hint, decide_eq_true_eq, if_neg hup, if_neg (not_le.mpr hlt)]
    congr 1
    split_ifs with hp
    · rcases prec with _ | prec
      · simp at hp
      · rw [padZeros_toDigits_of_lt hlt]
    · rfl

end

/-- The zeros and the point that `formatRat` takes away. -/
theorem trim_decimal {int frac : List Char} (hfrac : ∀ c ∈ frac, isDigit c = true) :
    ((trimZeros (int ++ '.' :: frac)).reverse.dropWhile (· == '.')).reverse =
      if trimZeros frac = [] then (int.reverse.dropWhile (· == '.')).reverse
      else int ++ '.' :: trimZeros frac := by
  rw [trimZeros_append_of_ne (by decide)]
  split_ifs with hempty
  · simp [hempty]
  · -- the last character is a digit
    rcases eq_nil_or_concat (trimZeros frac) with hnil | ⟨front, last, hlast⟩
    · exact absurd hnil hempty
    · have hdigit := hfrac last (mem_of_mem_trimZeros (by rw [hlast]; simp))
      have hne : last ≠ '.' := fun heq => by simp [heq, isDigit] at hdigit
      rw [hlast]
      simp [hne]

/-- The first character of a text is a digit. -/
theorem exists_decimalText (n : Nat) (frac : List Char) :
    ∃ c cs, decimalText (Nat.toDigits 10 n) frac = c :: cs ∧ isDigit c = true := by
  have hpos := @Nat.length_toDigits_pos 10 n
  cases hdigits : Nat.toDigits 10 n with
  | nil =>
    rw [hdigits] at hpos
    simp at hpos
  | cons c cs =>
    have hc : isDigit c = true := isDigit_of_mem_toDigits (n := n) (by rw [hdigits]; simp)
    unfold decimalText
    split_ifs
    · exact ⟨c, cs, rfl, hc⟩
    · exact ⟨c, _, rfl, hc⟩

theorem dropWhile_of_not_mem (h : c ∉ cs) : cs.dropWhile (· == c) = cs := by
  cases cs with
  | nil => rfl
  | cons d cs =>
    have hne : d ≠ c := fun heq => h (by simp [heq])
    rw [dropWhile_cons, if_neg (by simpa using hne)]

/-- Before the sign of a zero is taken away, `formatRat` has the sign and the text. -/
theorem trim_floatString (sign : List Char) {frac : List Char} (n : Nat) (prec : Nat)
    (hsign : '.' ∉ sign) (hfrac : ∀ c ∈ frac, isDigit c = true) (hlen : frac.length = prec) :
    let s := sign ++ Nat.toDigits 10 n ++ if 0 < prec then '.' :: frac else []
    (if s.contains '.' then ((trimZeros s).reverse.dropWhile (· == '.')).reverse else s) =
      sign ++ decimalText (Nat.toDigits 10 n) frac := by
  have hpoint : '.' ∉ sign ++ Nat.toDigits 10 n := by
    rw [mem_append]
    exact fun h => h.elim hsign fun h => absurd (isDigit_of_mem_toDigits h) (by decide)
  dsimp only
  by_cases hprec : 0 < prec
  · rw [if_pos hprec, if_pos (by simp), trim_decimal hfrac]
    unfold decimalText
    split_ifs with hempty
    · -- the text before the point does not end with one
      rw [dropWhile_of_not_mem (mt mem_reverse.mp hpoint), reverse_reverse]
    · rw [append_assoc]
  · have hnil : frac = [] := length_eq_zero_iff.mp (by omega)
    rw [if_neg hprec, append_nil, if_neg (by simpa using hpoint), hnil]
    rfl

/-- What `formatRat` writes. -/
theorem formatRat_eq (log2 : Log2Five) {x : ℚ} {m : Int} (hx : x = m / 10 ^ k)
    (haddr : Addressable x.den) :
    formatRat log2 x = signedText (m < 0) (decimalText (Nat.toDigits 10 (m.natAbs / 10 ^ k))
      (fixedDigits k m.natAbs)) := by
  have hden := den_dvd_pow hx
  have hneg : x < 0 ↔ m < 0 := by
    rw [hx, div_lt_iff₀ (by positivity), zero_mul]
    exact Int.cast_lt_zero
  rcases exists_pow_mul_pow hden with ⟨a, b, hab⟩
  have hprec := finiteDigits_pow_mul_pow log2 a b (hab ▸ haddr)
  have hdvd := pow_mul_pow_dvd a b
  rw [← hab] at hprec hdvd
  generalize max a b = prec at hprec hdvd
  rcases floatString_eq hx hdvd with ⟨r, hr, hfloat⟩
  -- both have the same fractional digits, up to zeros
  have hfrac : ∀ int, decimalText int (fixedDigits prec r) =
      decimalText int (fixedDigits k m.natAbs) := by
    intro int
    unfold decimalText
    rw [trimZeros_fixedDigits_eq hr, fixedDigits_mod]
  have htrim := trim_floatString (if x < 0 then ['-'] else []) (m.natAbs / 10 ^ k) prec
    (by split_ifs <;> simp) (fun c hc => isDigit_of_mem_fixedDigits hc) (length_fixedDigits prec r)
  rw [hfrac] at htrim
  unfold formatRat
  simp only [hprec, getD_some]
  rw [hfloat]
  rw [htrim]
  unfold signedText
  by_cases hm : m < 0
  · rw [if_pos (hneg.mpr hm)]
    by_cases hzero : decimalText (Nat.toDigits 10 (m.natAbs / 10 ^ k)) (fixedDigits k m.natAbs) =
        ['0']
    · rw [hzero]
      simp
    · rw [if_neg (by simpa using hzero), if_pos ⟨hm, hzero⟩]
      rfl
  · -- a text without a sign starts with a digit
    rcases exists_decimalText (m.natAbs / 10 ^ k) (fixedDigits k m.natAbs) with ⟨c, cs, htext, hc⟩
    have hminus : c ≠ '-' := fun heq => by simp [heq, isDigit] at hc
    rw [if_neg (mt hneg.mp hm), nil_append, htext, if_neg (by simp [hminus]),
      if_neg fun hand => hm hand.1]

/-! ## Canonical decimals and rounding -/

/-- The canonical text of a decimal that is not negative: a numeral, and fractional digits
    without a zero at their end if there are any. -/
def IsCanonical (cs : List Char) (v : ℚ) : Prop :=
  ∃ i frac, cs = Nat.toDigits 10 i ++ (if frac = [] then [] else '.' :: frac) ∧
    (∀ c ∈ frac, isDigit c = true) ∧ frac.getLast? ≠ some '0' ∧
    v = i + digitsValue frac / 10 ^ frac.length

theorem digitsValue_fixedDigits (k n : Nat) : digitsValue (fixedDigits k n) = n % 10 ^ k := by
  induction k generalizing n with
  | zero => simp [fixedDigits, digitsValue, Nat.mod_one]
  | succ k ih =>
    have hlt : n % 10 < 10 := Nat.mod_lt _ (by norm_num)
    have hdigit : (Nat.digitChar (n % 10)).toNat - '0'.toNat = n % 10 := by
      interval_cases n % 10 <;> rfl
    rw [fixedDigits, digitsValue_concat, ih, hdigit, pow_succ', Nat.mod_mul]
    ring

/-- Without its zeros a fraction is the same. -/
theorem digitsValue_trimZeros (cs : List Char) :
    digitsValue (trimZeros cs) * 10 ^ cs.length = digitsValue cs * 10 ^ (trimZeros cs).length := by
  induction cs using List.reverseRecOn with
  | nil => rfl
  | append_singleton cs c ih =>
    by_cases hc : c = '0'
    · have htrim : trimZeros (cs ++ [c]) = trimZeros cs := by simp [trimZeros, hc]
      rw [htrim, digitsValue_concat, hc, length_append, length_singleton, pow_succ, ← mul_assoc, ih,
        Nat.sub_self]
      ring
    · rw [trimZeros_append_of_ne hc]
      simp [trimZeros]

/-- What the exact path writes is canonical. -/
theorem isCanonical_decimalText (n k : Nat) : IsCanonical
    (decimalText (Nat.toDigits 10 (n / 10 ^ k)) (fixedDigits k n)) (n / 10 ^ k) := by
  refine ⟨n / 10 ^ k, trimZeros (fixedDigits k n), ?_, ?_, ?_, ?_⟩
  · unfold decimalText
    split_ifs <;> simp
  · exact fun c hc => isDigit_of_mem_fixedDigits (mem_of_mem_trimZeros hc)
  · unfold trimZeros
    rw [getLast?_reverse]
    intro hhead
    have hnot := head?_dropWhile_not (· == '0') (fixedDigits k n).reverse
    rw [hhead] at hnot
    simp at hnot
  · have hvalue := digitsValue_trimZeros (fixedDigits k n)
    rw [length_fixedDigits, digitsValue_fixedDigits] at hvalue
    have hrat : (digitsValue (trimZeros (fixedDigits k n)) : ℚ) * 10 ^ k =
        (n % 10 ^ k : Nat) * 10 ^ (trimZeros (fixedDigits k n)).length := by exact_mod_cast hvalue
    have hsplit : (n : ℚ) = (n / 10 ^ k : Nat) * 10 ^ k + (n % 10 ^ k : Nat) := by
      exact_mod_cast (Nat.div_add_mod' n (10 ^ k)).symm
    rw [hsplit, add_div, mul_div_cancel_right₀ _ (by positivity), add_right_inj,
      div_eq_div_iff (by positivity) (by positivity)]
    exact hrat.symm

theorem floorRat_eq (x : ℚ) : floorRat x = ⌊x⌋ := by
  have hden : (0 : Int) < x.den := by exact_mod_cast x.den_pos
  have hmod := Int.emod_lt_of_pos x.num hden
  have hpos := Int.emod_nonneg x.num hden.ne'
  unfold floorRat
  dsimp only
  rw [Rat.floor_def', Int.tdiv_eq_ediv, Int.tmod_eq_emod, Int.sign_eq_one_of_pos hden,
    Int.natAbs_natCast]
  split_ifs <;> omega

/-- The texts of decimals and their rounding, all exact. -/
theorem exact_decimals (log2 : Log2Five) :
    (∀ a b, Addressable (2 ^ a * 5 ^ b) → finiteDigits log2 (2 ^ a * 5 ^ b) = some (max a b)) ∧
    (∀ d, 0 < d → (∀ a b, d ≠ 2 ^ a * 5 ^ b) → finiteDigits log2 d = none) ∧
    (∀ (r : ℚ) (a b : Nat), 0 < r → r.den = 2 ^ a * 5 ^ b → Addressable r.den →
      IsCanonical (formatRat log2 r) r) ∧
    ∀ r : ℚ, roundRat r .round = round r ∧ roundRat r .ceil = ⌈r⌉ ∧ roundRat r .floor = ⌊r⌋ := by
  refine ⟨finiteDigits_pow_mul_pow log2, fun d hd hnot => ?_, fun r a b hr hden haddr => ?_,
    fun r => ⟨?_, ?_, ?_⟩⟩
  · by_contra hsome
    rcases Option.ne_none_iff_exists'.mp hsome with ⟨n, hn⟩
    rcases exists_of_finiteDigits hd hn with ⟨a, b, hab⟩
    exact hnot a b hab
  · -- Write `r` over the power of ten that has `finiteDigits` digits.
    rcases hden ▸ pow_mul_pow_dvd a b with ⟨q, hq⟩
    have hten : (10 : ℚ) ^ max a b = r.den * q := by exact_mod_cast hq
    have hpos : (r.den * q : ℚ) ≠ 0 := hten ▸ by positivity
    have hnum : ((r.num.natAbs : Nat) : ℚ) = r.num := by
      rw [← Int.cast_natCast, Int.natAbs_of_nonneg (Rat.num_pos.mpr hr).le]
    have hvalue : r = (r.num.natAbs * q : Nat) / 10 ^ max a b := by
      rw [hten, Nat.cast_mul, hnum, mul_div_mul_right _ _ (right_ne_zero_of_mul hpos),
        Rat.num_div_den]
    have hcanonical := isCanonical_decimalText (r.num.natAbs * q) (max a b)
    rw [← hvalue] at hcanonical
    rw [formatRat_eq log2 (m := (r.num.natAbs * q : Nat)) hvalue haddr, signedText,
      Int.natAbs_natCast, if_neg fun hand => absurd hand.1 (by omega)]
    exact hcanonical
  · rw [roundRat, floorRat_eq, round_eq]
  · rw [roundRat, floorRat_eq, Int.floor_neg, Int.cast_neg, neg_neg]
  · rw [roundRat, floorRat_eq]

/-! ## The steps of the fast path -/

/-- The values of integer and decimal literals. -/
inductive ExactLiteral (a : Numeric) : Prop
  | integer (v : Int) (kind : a.kind = .integer) (i : a.i = some v) (r : a.r = none)
  | decimal (kind : a.kind = .decimal) (i : a.i = none) (r : a.r = none)
      (lex : isDecimalLexical a.lex = true)

theorem exactLiteral_of_numericOf {ok : Char → Bool} {l : LiteralOf ok} (h : numericOf l = some a)
    (hkind : a.kind.isExact = true) : ExactLiteral a := by
  rcases bind_eq_some_iff.mp h with ⟨datatype, -, hvalue⟩
  unfold numericValue at hvalue
  split at hvalue
  · simp at hvalue
  · dsimp only at hvalue
    split_ifs at hvalue
    cases hvalue
    exact .integer _ rfl rfl rfl
  · split_ifs at hvalue with hlex
    rcases map_eq_some_iff.mp hvalue with ⟨parsed, -, rfl⟩
    exact .decimal rfl rfl rfl hlex
  · rename_i kind hnot hdec hkinds
    rcases map_eq_some_iff.mp hvalue with ⟨f, -, rfl⟩
    cases kind with
    | integer => exact absurd rfl hnot
    | decimal => exact absurd rfl hdec
    | float | double => simp [NumKind.isExact] at hkind

theorem cutAt_some {c : Char} {xs ys : List Char} (h : cutAt c cs = (xs, some ys)) :
    cs = xs ++ c :: ys := by
  unfold cutAt at h
  split at h
  · simp at h
  · rename_i d behind hdrop
    have hd : d = c := by
      have hhead := head?_dropWhile_not (· != c) cs
      rw [hdrop] at hhead
      simpa using hhead
    have hsplit := takeWhile_append_dropWhile (p := (· != c)) (l := cs)
    rw [hdrop, hd] at hsplit
    rw [← (Prod.mk.inj h).1, ← some.inj (Prod.mk.inj h).2, hsplit]

theorem cutAt_none {c : Char} {xs : List Char} (h : cutAt c cs = (xs, none)) : cs = xs := by
  unfold cutAt at h
  split at h
  · exact (Prod.mk.inj h).1
  · simp at h

/-- A decimal behind its sign: digits, with a point between them or without one. -/
structure IsDecimal (cs int frac : List Char) : Prop where
  parts : decimalParts cs = (int, frac)
  digits : ∀ c ∈ int ++ frac, isDigit c = true
  ne_nil : int ++ frac ≠ []
  body : skipSign cs = int ++ '.' :: frac ∨ skipSign cs = int ∧ frac = []

theorem exists_isDecimal (h : isDecimalLexical cs = true) : ∃ int frac, IsDecimal cs int frac := by
  have hdigits : ∀ {ds : List Char}, allDigits ds = true →
      (∀ c ∈ ds, isDigit c = true) ∧ ds ≠ [] := by
    intro ds hds
    simpa [allDigits, and_comm] using hds
  have hparts : ∀ {int frac}, cutAt '.' (skipSign cs) = (int, frac) →
      decimalParts cs = (int, frac.getD []) := fun hcut => by rw [decimalParts, hcut]
  unfold isDecimalLexical at h
  split at h
  · rename_i int hcut
    exact ⟨int, [], hparts hcut, by simpa using (hdigits h).1, by simpa using (hdigits h).2,
      .inr ⟨cutAt_none hcut, rfl⟩⟩
  · rename_i frac hcut
    exact ⟨[], frac, hparts hcut, (hdigits h).1, (hdigits h).2, .inl (cutAt_some hcut)⟩
  · rename_i int frac hint hcut
    refine ⟨int, frac, hparts hcut, fun c hc => ?_, by simpa using fun hnil => absurd hnil hint,
      .inl (cutAt_some hcut)⟩
    rw [Bool.and_eq_true, Bool.or_eq_true, List.isEmpty_iff] at h
    rcases mem_append.mp hc with hc | hc
    · exact (hdigits h.1).1 c hc
    · rcases h.2 with hempty | hfrac
      · simp [hempty] at hc
      · exact (hdigits hfrac).1 c hc

/-- The mantissa of digits that are few enough. -/
theorem scaleDigits_eq (hcs : ∀ c ∈ cs, isDigit c = true) :
    ∀ {m : Int}, 0 ≤ m → (m + 1) * 10 ^ cs.length ≤ 10 ^ 17 →
      scaleDigits cs m = .ok (m * 10 ^ cs.length + digitsValue cs) := by
  induction cs with
  | nil =>
    intro m _ _
    simp [scaleDigits, digitsValue]
    rfl
  | cons c cs ih =>
    intro m hm hle
    have hc : c.toNat - '0'.toNat < 10 := digit_lt (hcs c (by simp))
    rw [length_cons, pow_succ] at hle
    -- one digit more is within the bound of all digits
    have hbound : (m * 10 + (c.toNat - '0'.toNat : Nat) + 1) * 10 ^ cs.length ≤ 10 ^ 17 := by
      refine le_trans ?_ hle
      rw [mul_comm (10 ^ cs.length) (10 : Int), ← mul_assoc]
      exact mul_le_mul_of_nonneg_right (by omega) (by positivity)
    have hsmall : m * 10 + (c.toNat - '0'.toNat : Nat) + 1 ≤ 10 ^ 17 :=
      le_trans (le_mul_of_one_le_right (by omega) (one_le_pow₀ (by norm_num))) hbound
    have hfirst : int64 (m * 10) = .ok (m * 10) :=
      int64_eq_ok (by rw [abs_of_nonneg (by omega)]; omega)
    have hsecond : int64 (m * 10 + (c.toNat - '0'.toNat : Nat)) =
        .ok (m * 10 + (c.toNat - '0'.toNat : Nat)) :=
      int64_eq_ok (by rw [abs_of_nonneg (by omega)]; omega)
    have hrest := ih (fun d hd => hcs d (by simp [hd])) (by omega) hbound
    have hstep : scaleDigits (c :: cs) m =
        scaleDigits cs (m * 10 + (c.toNat - '0'.toNat : Nat)) := by
      show (do
        let m' ← (do
          let shifted ← int64 (m * 10)
          int64 (shifted + (c.toNat - '0'.toNat : Nat)))
        scaleDigits cs m') = _
      rw [hfirst]
      show (int64 (m * 10 + (c.toNat - '0'.toNat : Nat)) >>= scaleDigits cs) = _
      rw [hsecond]
      rfl
    rw [hstep, hrest, digitsValue_cons, length_cons, pow_succ]
    congr 1
    push_cast
    ring

theorem signOf_cases (cs : List Char) : signOf cs = 1 ∨ signOf cs = -1 := by
  unfold signOf
  split_ifs
  · exact .inr rfl
  · exact .inl rfl

/-- A scaled decimal that the fast path starts from. -/
structure Small (a : Numeric) (x : Scaled) : Prop where
  bound : |x.m| < 10 ^ 17
  scale : x.scale ≤ 17
  exact : a.exact = some x.value

theorem scaledDecimal_spec (hcs : isDecimalLexical cs = true) :
    ∃ r, scaledDecimal cs = .ok r ∧
      ∀ x ∈ r, |x.m| < 10 ^ 17 ∧ x.scale ≤ 17 ∧ decimalValue cs = x.value := by
  obtain ⟨int, frac, hform⟩ := exists_isDecimal hcs
  have hdigits := hform.digits
  unfold scaledDecimal decimalValue
  rw [hform.parts]
  dsimp only
  by_cases hlong : maxScaledDigits < int.length + frac.length
  · rw [if_pos hlong]
    exact ⟨none, rfl, by simp⟩
  · rw [if_neg hlong]
    have hlen : int.length + frac.length ≤ 17 := not_lt.mp hlong
    have hpow : (10 : Int) ^ (int ++ frac).length ≤ 10 ^ 17 := by
      rw [length_append]
      exact pow_le_pow_right₀ (by norm_num) hlen
    have hvalue : (digitsValue (int ++ frac) : Int) < 10 ^ 17 :=
      lt_of_lt_of_le (by exact_mod_cast digitsValue_lt hdigits) hpow
    -- Seventeen digits leave room for a last multiplication by ten in an `int64`.
    have hfits : ((0 : Int) + 1) * 10 ^ (int ++ frac).length ≤ 10 ^ 17 := by
      rw [zero_add, one_mul]
      exact hpow
    have hm := scaleDigits_eq hdigits (le_refl 0) hfits
    rw [zero_mul, zero_add] at hm
    rw [hm]
    generalize (digitsValue (int ++ frac) : Nat) = v at hvalue ⊢
    rw [← abs_of_nonneg (Int.natCast_nonneg v)] at hvalue
    rcases signOf_cases cs with hsign | hsign
    · rw [hsign]
      refine ⟨some ⟨v, frac.length⟩, rfl, ?_⟩
      intro x hx
      cases hx
      exact ⟨hvalue, by dsimp only; omega, by simp [Scaled.value]⟩
    · rw [← abs_neg] at hvalue
      rw [hsign, ok_bind, if_neg (by decide), int64_eq_ok (lt_trans hvalue (by norm_num))]
      refine ⟨_, rfl, ?_⟩
      intro x hx
      cases hx
      exact ⟨hvalue, by dsimp only; omega, by simp [Scaled.value]⟩

theorem scaledOf_spec (ha : ExactLiteral a) : ∃ r, scaledOf a = .ok r ∧ ∀ x ∈ r, Small a x := by
  cases ha with
  | integer v hkind hi hr =>
    unfold scaledOf
    rw [hkind, hi]
    dsimp only
    split_ifs with hbounds
    · refine ⟨_, rfl, ?_⟩
      intro x hx
      cases hx
      refine ⟨abs_lt.mpr ⟨hbounds.2.2.1, hbounds.2.2.2⟩, by simp, ?_⟩
      simp [Numeric.exact, hi, hr, Scaled.value]
    · exact ⟨none, rfl, by simp⟩
  | decimal hkind hi hr hlex =>
    have hne : a.lex ≠ [] := by
      intro hnil
      rw [hnil] at hlex
      simp [isDecimalLexical, cutAt, skipSign, allDigits] at hlex
    have hexact : a.exact = some (decimalValue a.lex) := by
      simp [Numeric.exact, hi, hr, hne]
    rcases scaledDecimal_spec hlex with ⟨r, hscaled, hr'⟩
    refine ⟨r, ?_, ?_⟩
    · unfold scaledOf
      rw [hkind, hr]
      simp only [if_neg hne, hscaled]
    · intro x hx
      rcases hr' x hx with ⟨hbound, hscale, hvalue⟩
      exact ⟨hbound, hscale, by rw [hexact, hvalue]⟩

/-- Bringing a mantissa to a larger scale multiplies it, within the bound. -/
theorem rescale_spec : ∀ (n : Nat) {m : Int}, |m| < 10 ^ 18 →
    ∃ r, rescale n m = .ok r ∧ ∀ m' ∈ r, m' = m * 10 ^ n ∧ |m'| < 10 ^ 18
  | 0, m, hm => ⟨some m, rfl, by simpa using hm⟩
  | n + 1, m, hm => by
    have habs : abs64 m = .ok |m| := abs64_eq_ok (lt_trans hm (by norm_num))
    unfold rescale
    rw [habs, ok_bind]
    by_cases hlarge : (10 : Int) ^ maxScaledDigits ≤ |m|
    · rw [if_pos hlarge]
      exact ⟨none, rfl, by simp⟩
    · have hsmall : |m| < 10 ^ 17 := not_le.mp hlarge
      have hten : |m * 10| < 10 ^ 18 := by
        rw [abs_mul, abs_of_nonneg (by norm_num : (0 : Int) ≤ 10)]
        omega
      have hmul : int64 (m * 10) = .ok (m * 10) := int64_eq_ok (lt_trans hten (by norm_num))
      rw [if_neg hlarge, hmul, ok_bind]
      rcases rescale_spec n hten with ⟨r, hr, hall⟩
      refine ⟨r, hr, ?_⟩
      intro m' hm'
      rcases hall m' hm' with ⟨heq, hbound⟩
      exact ⟨by rw [heq, pow_succ]; ring, hbound⟩

/-- A result of the fast path that is written without overflow. -/
structure Fits (s : Scaled) (v : ℚ) : Prop where
  bound : |s.m| < 2 ^ 63
  scale : s.scale ≤ 18
  value : v = s.value

/-- At a larger scale the mantissa stands for the same number. -/
theorem Scaled.value_rescaled {z : Scaled} {m : Int} {n k : Nat} (hk : k = n + z.scale)
    (hm : m = z.m * 10 ^ n) : z.value = m / 10 ^ k := by
  rw [hk, hm, pow_add, Scaled.value]
  push_cast
  field_simp

theorem signed_bind {β : Type} (negate : Prop) [Decidable negate] {v : Int} (h : |v| < 2 ^ 63)
    (f : Int → Except Overflow β) :
    (if negate then int64 (-v) >>= f else pure v >>= f) = f (if negate then -v else v) := by
  split
  · rw [int64_eq_ok (by rwa [abs_neg]), ok_bind]
  · rfl

theorem signed_abs_mul (a b : Int) :
    (if decide (a < 0) ≠ decide (b < 0) then -|a * b| else |a * b|) = a * b := by
  rw [abs_mul]
  rcases lt_or_ge a 0 with ha | ha <;> rcases lt_or_ge b 0 with hb | hb <;>
    simp [ha, hb, ha.not_gt, hb.not_gt, abs_of_neg, abs_of_nonneg]

/-- Sums and differences are exact, or declined. -/
theorem addScaled_spec (negate : Bool) (hx : |x.m| < 10 ^ 17) (hxs : x.scale ≤ 17)
    (hy : |y.m| < 10 ^ 17) (hys : y.scale ≤ 17) :
    ∃ r, addScaled negate x y = .ok r ∧
      ∀ s ∈ r, Fits s (if negate then x.value - y.value else x.value + y.value) := by
  rcases rescale_spec (y.scale - x.scale) (lt_trans hx (by norm_num)) with ⟨rx, hrx, hxall⟩
  rcases rescale_spec (x.scale - y.scale) (lt_trans hy (by norm_num)) with ⟨ry, hry, hyall⟩
  unfold addScaled
  rw [hrx]
  cases rx with
  | none => exact ⟨none, rfl, by simp⟩
  | some xm =>
    rcases hxall xm rfl with ⟨hxm, hxbound⟩
    dsimp only
    rw [hry]
    cases ry with
    | none => exact ⟨none, rfl, by simp⟩
    | some ym =>
      rcases hyall ym rfl with ⟨hym, hybound⟩
      have hxv := Scaled.value_rescaled (k := max x.scale y.scale) (by omega) hxm
      have hyv := Scaled.value_rescaled (k := max x.scale y.scale) (by omega) hym
      -- Both summands are below 2^62 after rescaling, so the sum fits.
      have hbound : |xm + if negate = true then -ym else ym| < 2 ^ 63 := by
        have hxb := abs_lt.mp hxbound
        have hyb := abs_lt.mp hybound
        split_ifs <;> exact abs_lt.mpr ⟨by omega, by omega⟩
      refine ⟨some ⟨xm + if negate = true then -ym else ym, max x.scale y.scale⟩, ?_, ?_⟩
      · refine (signed_bind (negate = true) (lt_trans hybound (by norm_num)) _).trans ?_
        rw [int64_eq_ok hbound]
        rfl
      · intro s hs
        cases hs
        refine ⟨hbound, by dsimp only; omega, ?_⟩
        rw [hxv, hyv, Scaled.value]
        split_ifs <;> push_cast <;> ring

/-- Products are exact, or declined. -/
theorem mulScaled_spec (hx : |x.m| < 10 ^ 17) (hy : |y.m| < 10 ^ 17) :
    ∃ r, mulScaled x y = .ok r ∧ ∀ s ∈ r, Fits s (x.value * y.value) := by
  have hxa : abs64 x.m = .ok |x.m| := abs64_eq_ok (lt_trans hx (by norm_num))
  have hya : abs64 y.m = .ok |y.m| := abs64_eq_ok (lt_trans hy (by norm_num))
  unfold mulScaled
  rw [hxa, ok_bind, hya, ok_bind]
  by_cases hdecline : |x.m| * |y.m| / 2 ^ 64 ≠ 0 ∨ 2 ^ 63 - 1 < |x.m| * |y.m| % 2 ^ 64 ∨
      18 < x.scale + y.scale
  · rw [if_pos hdecline]
    exact ⟨none, rfl, by simp⟩
  · rw [if_neg hdecline]
    push Not at hdecline
    rcases hdecline with ⟨hhi, hlo, hscale⟩
    -- the low word is the product
    have hlow : |x.m| * |y.m| % 2 ^ 64 = |x.m * y.m| := by
      rw [abs_mul]
      omega
    rw [hlow] at hlo ⊢
    have habs : |(|x.m * y.m|)| < 2 ^ 63 := by
      rw [abs_abs]
      omega
    dsimp only
    rw [signed_bind _ habs, signed_abs_mul]
    refine ⟨_, rfl, ?_⟩
    intro s hs
    cases hs
    refine ⟨by dsimp only; omega, hscale, ?_⟩
    simp only [Scaled.value]
    push_cast
    rw [pow_add]
    field_simp

/-! ## Both paths -/

theorem Fits.size_den_le {v : ℚ} (h : Fits s v) : v.den.size ≤ 63 := by
  have hden : v.den ≤ 10 ^ s.scale := Nat.le_of_dvd (by positivity) (den_dvd_pow h.value)
  have hten : 10 ^ s.scale ≤ 10 ^ 18 := Nat.pow_le_pow_right (by norm_num) h.scale
  exact Nat.size_le.mpr (lt_of_le_of_lt (hden.trans hten) (by norm_num))

/-- A result of the fast path is short enough for the exact one. -/
theorem tooLong_eq_false {v : ℚ} (h : Fits s v) : tooLong v = false := by
  have hden : v.den ≤ 10 ^ s.scale := Nat.le_of_dvd (by positivity) (den_dvd_pow h.value)
  have hnum : v.num.natAbs ≤ s.m.natAbs := by
    have hcross := natAbs_mul_den h.value
    have hle : v.num.natAbs * 10 ^ s.scale ≤ s.m.natAbs * 10 ^ s.scale := by
      rw [← hcross]
      exact Nat.mul_le_mul_left _ hden
    exact Nat.le_of_mul_le_mul_right hle (by positivity)
  have hm : s.m.natAbs < 2 ^ 63 := by
    have hbound := h.bound
    rw [Int.abs_eq_natAbs] at hbound
    exact_mod_cast hbound
  have hnumsize : v.num.natAbs.size ≤ 63 := Nat.size_le.mpr (lt_of_le_of_lt hnum hm)
  have hdensize := h.size_den_le
  unfold tooLong maxDecimalBits
  simp only [decide_eq_false_iff_not]
  omega

/-- Whatever the operator, the result is that of the exact values, or declined. -/
theorem combineScaled_spec (log2 : Log2Five) {op : ArithOp} (hop : op ≠ .div) {b : Numeric}
    (hx : Small a x) (hy : Small b y) :
    ∃ r, combineScaled op x y = .ok r ∧ ∀ s ∈ r, ∃ v, Fits s v ∧
      ratArithmetic log2 op x.value y.value = if tooLong v then none else some v := by
  cases op with
  | div => exact absurd rfl hop
  | mul =>
    rcases mulScaled_spec hx.bound hy.bound with ⟨r, hr, hall⟩
    exact ⟨r, hr, fun s hs => ⟨_, hall s hs, rfl⟩⟩
  | add =>
    rcases addScaled_spec false hx.bound hx.scale hy.bound hy.scale with ⟨r, hr, hall⟩
    exact ⟨r, hr, fun s hs => ⟨_, hall s hs, rfl⟩⟩
  | sub =>
    rcases addScaled_spec true hx.bound hx.scale hy.bound hy.scale with ⟨r, hr, hall⟩
    exact ⟨r, hr, fun s hs => ⟨_, hall s hs, rfl⟩⟩

/-- On integers and decimals, the fast path overflows nowhere, and when it answers it
    writes what the exact path writes. -/
theorem scaledArithmetic_exact (log2 : Log2Five) {op : ArithOp} (hop : op ≠ .div)
    {ok : Char → Bool} {l l' : LiteralOf ok} {a b : Numeric} (ha : numericOf l = some a)
    (hb : numericOf l' = some b) (hka : a.kind.isExact = true) (hkb : b.kind.isExact = true) :
    (∃ r, scaledArithmetic op a b = .ok r ∧ ∀ s ∈ r, bigArithmetic log2 op a b = some s) ∧
      decimalArithmetic log2 op a b = .ok (bigArithmetic log2 op a b) := by
  have hmain : ∃ r, scaledArithmetic op a b = .ok r ∧
      ∀ s ∈ r, bigArithmetic log2 op a b = some s := by
    rcases scaledOf_spec (exactLiteral_of_numericOf ha hka) with ⟨rx, hrx, hxs⟩
    rcases scaledOf_spec (exactLiteral_of_numericOf hb hkb) with ⟨ry, hry, hys⟩
    -- At each step the fast path may give up, and then claims nothing.
    unfold scaledArithmetic
    rw [hrx, ok_bind]
    cases rx with
    | none => exact ⟨none, rfl, by simp⟩
    | some x =>
      dsimp only
      rw [hry, ok_bind]
      cases ry with
      | none => exact ⟨none, rfl, by simp⟩
      | some y =>
        have hx := hxs x rfl
        have hy := hys y rfl
        rcases combineScaled_spec log2 hop hx hy with ⟨r, hr, hall⟩
        dsimp only
        rw [hr, ok_bind]
        cases r with
        | none => exact ⟨none, rfl, by simp⟩
        | some s =>
          rcases hall s rfl with ⟨v, hfits, hrat⟩
          dsimp only
          have haddr : Addressable v.den := hfits.size_den_le.trans_lt (by norm_num)
          rw [Scaled.string_eq hfits.bound, ← formatRat_eq log2 hfits.value haddr]
          refine ⟨some (formatRat log2 v), rfl, ?_⟩
          intro t ht
          rw [← some.inj ht, bigArithmetic, hx.exact, hy.exact, bind_some,
            bind_some, hrat, tooLong_eq_false hfits]
          rfl
  refine ⟨hmain, ?_⟩
  rcases hmain with ⟨r, hr, hall⟩
  unfold decimalArithmetic
  rw [if_neg hop, hr]
  cases r with
  | none => rfl
  | some s =>
    rw [hall s rfl]
    rfl

/-- The nearest `float64`. -/
def nearestLog2Five : Log2Five where
  value := 5228517251457905 / 2 ^ 51
  near := by norm_num

/-- `"-1.50"` as a decimal. -/
def minusThreeHalves : Literal :=
  ⟨"-1.50", .typed ⟨xsdDecimal, by decide⟩ fun _ => by decide⟩

theorem xsdInteger_valid : xsdInteger.toList.all iriChar = true := by decide

/-- `"4"` as an integer. -/
def four : Literal :=
  ⟨"4", .typed ⟨xsdInteger, xsdInteger_valid⟩ fun _ => by decide⟩

theorem isSome_minusThreeHalves : (numericOf minusThreeHalves).isSome = true := by decide +kernel

theorem isSome_four : (numericOf four).isSome = true := by decide +kernel

theorem scaledArithmetic_exact_product :
    bigArithmetic nearestLog2Five .mul ((numericOf minusThreeHalves).get isSome_minusThreeHalves)
      ((numericOf four).get isSome_four) = some ['-', '6'] := by
  rcases (scaledArithmetic_exact nearestLog2Five (by decide : ArithOp.mul ≠ .div)
    (some_get isSome_minusThreeHalves).symm (some_get isSome_four).symm
    (by decide +kernel) (by decide +kernel)).1 with ⟨r, hr, hall⟩
  have hrun : scaledArithmetic .mul ((numericOf minusThreeHalves).get isSome_minusThreeHalves)
      ((numericOf four).get isSome_four) = .ok (some ['-', '6']) := by decide +kernel
  exact hall _ (by rw [Except.ok.inj (hr.symm.trans hrun)]; rfl)

/-- Three quarters, and the half below zero. -/
theorem exact_decimals_threeQuarters :
    IsCanonical (formatRat nearestLog2Five (3 / 4)) (3 / 4) ∧
      finiteDigits nearestLog2Five 3 = none ∧ roundRat (-5 / 2) .round = -2 := by
  rcases exact_decimals nearestLog2Five with ⟨-, hnone, htext, hround⟩
  refine ⟨htext (3 / 4) 2 0 (by norm_num) (by decide +kernel) ?_, hnone 3 (by norm_num) ?_, ?_⟩
  · have hden : (3 / 4 : ℚ).den = 4 := by decide +kernel
    have hsize : Nat.size 4 = 3 := by decide
    rw [Addressable, hden, hsize]
    norm_num
  · intro a b hab
    have hdvd := hab ▸ pow_mul_pow_dvd a b
    have hten := Nat.prime_three.dvd_of_dvd_pow hdvd
    omega
  · rw [(hround _).1]
    norm_num [round_eq]

end GoRdf
