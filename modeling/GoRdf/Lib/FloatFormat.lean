import Mathlib.Algebra.Order.Field.Power
import Mathlib.Data.Int.Log
import Mathlib.Data.Rat.Floor
import Mathlib.Order.WithBot
import Mathlib.Tactic.Positivity
import Mathlib.Tactic.FieldSimp
import Mathlib.Tactic.Linarith

/-!
# Rounding to a Binary Floating-Point Format

The value a rational has as a floating-point number: the nearest one of the
format, the even one of two that are equally near, and an infinity when that one
is too large.

Between two powers of two the numbers of a format are evenly spaced, and below
some power of two they all have the least spacing. So a rational is rounded by
counting it in units of the spacing around it and rounding the count to an
integer.

## Main definitions

* `FloatFormat`: How many binary digits, the least spacing and the first number
  that is too large.
* `roundEven`: The nearest integer, the even one of two.
* `FloatFormat.round`: The nearest number of a format.
* `squareDigits`: The square of a number of which the leading digits are kept.

## Theorems

* `FloatFormat.round_mono`: Rounding keeps order.
* `FloatFormat.roundPos_error`: The error, against the rounded number.
* `FloatFormat.roundPos_natCast`: Small integers are numbers of the format.
* `FloatFormat.eq_of_roundSigned_eq`: Fractions with few digits are told apart.
* `iterate_squareDigits_le`, `le_iterate_squareDigits`: A large power lies between what
  its leading digits stand for.
-/

namespace GoRdf

namespace Lib

/-- A rational or an infinity. -/
abbrev ExtRat := WithBot (WithTop ℚ)

/-- A rational as it is. -/
def ExtRat.ofRat (q : ℚ) : ExtRat :=
  ((q : WithTop ℚ) : WithBot (WithTop ℚ))

/-- A format of binary digits, `2 ^ low` as its least spacing and `2 ^ high` as its
    first number that is too large. -/
structure FloatFormat where
  digits : Nat
  low : Int
  high : Int

/-! ## The nearest integer -/

/-- The nearest integer, the even one of two. -/
def roundEven (x : ℚ) : ℤ :=
  if x - ⌊x⌋ < 1 / 2 then ⌊x⌋
  else if 1 / 2 < x - ⌊x⌋ then ⌊x⌋ + 1
  else if ⌊x⌋ % 2 = 0 then ⌊x⌋ else ⌊x⌋ + 1

theorem roundEven_bounds (x : ℚ) : ⌊x⌋ ≤ roundEven x ∧ roundEven x ≤ ⌊x⌋ + 1 := by
  unfold roundEven
  split_ifs <;> omega

theorem roundEven_mono {x y : ℚ} (h : x ≤ y) : roundEven x ≤ roundEven y := by
  have hfloor : ⌊x⌋ ≤ ⌊y⌋ := Int.floor_le_floor h
  by_cases hlt : ⌊x⌋ < ⌊y⌋
  · have hx := roundEven_bounds x
    have hy := roundEven_bounds y
    omega
  · -- between the same integers, the one that is farther up is not rounded down further
    have heq : ⌊x⌋ = ⌊y⌋ := le_antisymm hfloor (not_lt.mp hlt)
    unfold roundEven
    rw [heq]
    split_ifs <;> first | omega | (exfalso; linarith)

theorem roundEven_error (x : ℚ) : |(roundEven x : ℚ) - x| ≤ 1 / 2 := by
  have hle := Int.floor_le x
  have hlt := Int.lt_floor_add_one x
  unfold roundEven
  rw [abs_le]
  split_ifs <;> push_cast <;> constructor <;> linarith

theorem roundEven_intCast (n : ℤ) : roundEven n = n := by
  unfold roundEven
  simp

/-! ## The nearest number -/

namespace FloatFormat

variable (F : FloatFormat)

/-- The exponent of the spacing around a positive rational. -/
def spacing (q : ℚ) : ℤ :=
  max F.low (Int.log 2 q - (F.digits - 1))

/-- The nearest number to a rational that is not negative. -/
def roundPos (q : ℚ) : ℚ :=
  roundEven (q / 2 ^ F.spacing q) * 2 ^ F.spacing q

/-- The nearest number, before it is seen to be too large. -/
def roundSigned (q : ℚ) : ℚ :=
  if q < 0 then -F.roundPos (-q) else F.roundPos q

/-- The nearest number of the format. -/
def round (q : ℚ) : ExtRat :=
  if (2 : ℚ) ^ F.high ≤ F.roundSigned q then ⊤
  else if F.roundSigned q ≤ -(2 : ℚ) ^ F.high then ⊥
  else ExtRat.ofRat (F.roundSigned q)

variable {F} {q : ℚ}

theorem roundPos_nonneg (hq : 0 ≤ q) : 0 ≤ F.roundPos q := by
  have hcount : 0 ≤ roundEven (q / 2 ^ F.spacing q) := by
    have hmono := roundEven_mono (show (((0 : ℤ) : ℚ)) ≤ q / 2 ^ F.spacing q by
      positivity)
    rwa [roundEven_intCast] at hmono
  unfold roundPos
  positivity

@[simp] theorem roundPos_zero : F.roundPos 0 = 0 := by
  have hzero : roundEven 0 = 0 := by exact_mod_cast roundEven_intCast 0
  rw [roundPos, zero_div, hzero, Int.cast_zero, zero_mul]

theorem abs_roundSigned (q : ℚ) : |F.roundSigned q| = F.roundPos |q| := by
  unfold roundSigned
  split_ifs with hneg
  · rw [abs_neg, abs_of_neg hneg, abs_of_nonneg (roundPos_nonneg (by linarith))]
  · rw [abs_of_nonneg (not_lt.mp hneg), abs_of_nonneg (roundPos_nonneg (not_lt.mp hneg))]

theorem abs_roundSigned_sub (F : FloatFormat) (q : ℚ) :
    |F.roundSigned q - q| = |F.roundPos |q| - (|q|)| := by
  unfold roundSigned
  split_ifs with hneg
  · rw [abs_of_neg hneg, ← abs_neg, neg_sub, sub_neg_eq_add, sub_neg_eq_add, add_comm]
  · rw [abs_of_nonneg (not_lt.mp hneg)]

/-- A power of two as a count of spacings. -/
theorem zpow_eq_count {e k : ℤ} (hk : e ≤ k) :
    (2 : ℚ) ^ k = ((2 ^ (k - e).toNat : ℤ) : ℚ) * 2 ^ e := by
  have hnat : ((k - e).toNat : ℤ) = k - e := Int.toNat_of_nonneg (by omega)
  push_cast
  rw [← zpow_natCast, ← zpow_add₀ (by norm_num)]
  congr 1
  omega

/-- A power of two that is a multiple of the spacing bounds the rounded number when it
    bounds the rational. -/
theorem roundPos_le_zpow {k : ℤ} (hk : F.spacing q ≤ k) (h : q ≤ 2 ^ k) : F.roundPos q ≤ 2 ^ k := by
  have hsplit := zpow_eq_count hk
  have hpos : (0 : ℚ) < 2 ^ F.spacing q := by positivity
  have hcount : q / 2 ^ F.spacing q ≤ ((2 ^ (k - F.spacing q).toNat : ℤ) : ℚ) := by
    rw [div_le_iff₀ hpos, ← hsplit]
    exact h
  have hround := roundEven_mono hcount
  rw [roundEven_intCast] at hround
  rw [hsplit]
  exact mul_le_mul_of_nonneg_right (by exact_mod_cast hround) hpos.le

theorem zpow_le_roundPos {k : ℤ} (hk : F.spacing q ≤ k) (h : 2 ^ k ≤ q) : 2 ^ k ≤ F.roundPos q := by
  have hsplit := zpow_eq_count hk
  have hpos : (0 : ℚ) < 2 ^ F.spacing q := by positivity
  have hcount : ((2 ^ (k - F.spacing q).toNat : ℤ) : ℚ) ≤ q / 2 ^ F.spacing q := by
    rw [le_div_iff₀ hpos, ← hsplit]
    exact h
  have hround := roundEven_mono hcount
  rw [roundEven_intCast] at hround
  rw [hsplit]
  exact mul_le_mul_of_nonneg_right (by exact_mod_cast hround) hpos.le

section

variable (hdigits : 0 < F.digits)

include hdigits

theorem roundPos_mono {p q : ℚ} (hp : 0 ≤ p) (h : p ≤ q) : F.roundPos p ≤ F.roundPos q := by
  by_cases hzero : p = 0
  · rw [hzero, roundPos_zero]
    exact roundPos_nonneg (hp.trans h)
  have hppos : 0 < p := lt_of_le_of_ne hp (Ne.symm hzero)
  have hlog : Int.log 2 p ≤ Int.log 2 q := Int.log_mono_right hppos h
  by_cases hsame : F.spacing p = F.spacing q
  · -- in one range both are counted in the same unit
    unfold roundPos
    rw [hsame]
    have hpos : (0 : ℚ) < 2 ^ F.spacing q := by positivity
    have hcount := roundEven_mono (div_le_div_of_nonneg_right h hpos.le)
    exact mul_le_mul_of_nonneg_right (by exact_mod_cast hcount) hpos.le
  · -- otherwise a power of two lies between them, and between their numbers
    have hq := Int.zpow_log_le_self (b := 2) (by norm_num) (hppos.trans_le h)
    have hp' := Int.lt_zpow_succ_log_self (b := 2) (by norm_num) p
    have hlow : F.spacing q = Int.log 2 q - (F.digits - 1) ∧ Int.log 2 p < Int.log 2 q := by
      unfold spacing at hsame ⊢
      omega
    have hbetween : F.roundPos p ≤ 2 ^ Int.log 2 q := by
      refine roundPos_le_zpow ?_ ?_
      · unfold spacing at hlow ⊢
        omega
      · exact (hp'.le.trans (zpow_le_zpow_right₀ (by norm_num) (by omega)))
    exact hbetween.trans (zpow_le_roundPos (by omega) (by exact_mod_cast hq))

theorem roundSigned_mono {p q : ℚ} (h : p ≤ q) : F.roundSigned p ≤ F.roundSigned q := by
  unfold roundSigned
  split_ifs with hp hq hq
  · exact neg_le_neg (roundPos_mono hdigits (by linarith) (by linarith))
  · have hleft := roundPos_nonneg (F := F) (q := -p) (by linarith)
    have hright := roundPos_nonneg (F := F) (q := q) (by linarith)
    linarith
  · linarith
  · exact roundPos_mono hdigits (by linarith) h

/-- Rounding keeps order. -/
theorem round_mono {p q : ℚ} (h : p ≤ q) : F.round p ≤ F.round q := by
  have hmono := roundSigned_mono hdigits h
  unfold round
  by_cases hp : (2 : ℚ) ^ F.high ≤ F.roundSigned p
  · rw [if_pos (hp.trans hmono)]
    exact le_top
  · rw [if_neg hp]
    by_cases hq : F.roundSigned q ≤ -(2 : ℚ) ^ F.high
    · rw [if_pos (hmono.trans hq)]
      exact bot_le
    · rw [if_neg hq]
      split_ifs
      · exact bot_le
      · exact bot_le
      · exact le_top
      · exact WithBot.coe_le_coe.mpr (WithTop.coe_le_coe.mpr hmono)

/-- The error is half a spacing, which is small against the number when that is not
    below the range of full digits. -/
theorem roundPos_error (hq : 0 < q) (hnormal : (2 : ℚ) ^ (F.low + F.digits - 1) ≤ F.roundPos q) :
    |F.roundPos q - q| ≤ F.roundPos q / 2 ^ F.digits := by
  have hpos : (0 : ℚ) < 2 ^ F.spacing q := by positivity
  have hhalf : |F.roundPos q - q| ≤ 2 ^ F.spacing q / 2 := by
    have herr := roundEven_error (q / 2 ^ F.spacing q)
    have hfactor : F.roundPos q - q =
        (roundEven (q / 2 ^ F.spacing q) - q / 2 ^ F.spacing q) * 2 ^ F.spacing q := by
      unfold roundPos
      field_simp
    rw [hfactor, abs_mul, abs_of_pos hpos]
    linarith [mul_le_mul_of_nonneg_right herr hpos.le]
  -- the number is at least as many spacings as there are counts of full digits
  have hlarge : (2 : ℚ) ^ (F.spacing q + F.digits - 1) ≤ F.roundPos q := by
    by_cases hlow : F.spacing q = F.low
    · rwa [hlow]
    · have hspacing : F.spacing q = Int.log 2 q - (F.digits - 1) := by
        unfold spacing at hlow ⊢
        omega
      have hle := Int.zpow_log_le_self (b := 2) (by norm_num) hq
      refine zpow_le_roundPos (by omega) ?_
      rw [show F.spacing q + F.digits - 1 = Int.log 2 q by omega]
      exact_mod_cast hle
  refine hhalf.trans ?_
  have hsplit : (2 : ℚ) ^ F.spacing q / 2 = 2 ^ (F.spacing q + F.digits - 1) / 2 ^ F.digits := by
    rw [eq_div_iff (by positivity), ← zpow_natCast, div_mul_eq_mul_div, ← zpow_add₀ (by norm_num),
      div_eq_iff (by norm_num), ← zpow_add_one₀ (by norm_num)]
    congr 1
    omega
  rw [hsplit]
  exact div_le_div_of_nonneg_right hlarge (by positivity)

end

/-- Integers of at most as many digits are numbers of the format. -/
theorem roundPos_natCast (hlow : F.low ≤ 0) {n : Nat} (hn : n < 2 ^ F.digits) :
    F.roundPos n = n := by
  rcases Nat.eq_zero_or_pos n with rfl | hpos
  · simp
  have hlog : Int.log 2 (n : ℚ) < F.digits := by
    have hlt : (n : ℚ) < ((2 : Nat) : ℚ) ^ (F.digits : ℤ) := by
      exact_mod_cast hn
    exact (Int.lt_zpow_iff_log_lt (by norm_num) (by exact_mod_cast hpos)).mp hlt
  have hspacing : F.spacing n ≤ 0 := by
    unfold spacing
    omega
  -- the count is the integer times a power of two
  have hcount : (n : ℚ) / 2 ^ F.spacing n = ((n * 2 ^ (-F.spacing n).toNat : ℤ) : ℚ) := by
    have hnat : ((-F.spacing n).toNat : ℤ) = -F.spacing n := Int.toNat_of_nonneg (by omega)
    push_cast
    rw [← zpow_natCast, hnat, zpow_neg, div_eq_mul_inv]
  unfold roundPos
  rw [hcount, roundEven_intCast, ← hcount, div_mul_cancel₀]
  positivity

/-! ## Fractions with few digits -/

/-- The rounded number has all its digits. -/
def Near (F : FloatFormat) (q : ℚ) : Prop :=
  |F.roundSigned q - q| ≤ |F.roundSigned q| / 2 ^ F.digits

theorem near_of_eq (h : F.roundSigned q = q) : F.Near q := by
  unfold Near
  rw [h, sub_self]
  positivity

theorem roundSigned_intCast (hlow : F.low ≤ 0) {i : ℤ} (hi : i.natAbs < 2 ^ F.digits) :
    F.roundSigned i = i := by
  have herr := F.abs_roundSigned_sub i
  rw [← Int.cast_abs, ← Nat.cast_natAbs, roundPos_natCast hlow hi, sub_self, abs_zero] at herr
  exact sub_eq_zero.mp (abs_eq_zero.mp herr)

theorem near_of_normal (hdigits : 0 < F.digits)
    (hnormal : (2 : ℚ) ^ (F.low + F.digits - 1) ≤ |F.roundSigned q|) : F.Near q := by
  unfold Near
  rw [abs_roundSigned] at hnormal ⊢
  rw [abs_roundSigned_sub]
  refine roundPos_error hdigits (abs_pos.mpr fun hzero => ?_) hnormal
  rw [hzero, abs_zero, roundPos_zero] at hnormal
  exact absurd hnormal (not_le.mpr (by positivity))

/-- Two fractions are equal when they round to the same number and the one with more
    digits behind the point has few enough digits. -/
theorem eq_of_roundSigned_eq {base s t : Nat} {k m : ℤ} (hbase : 0 < base) (hst : s ≤ t)
    (hm : 2 * |m| + 1 < 2 ^ F.digits) (ha : F.Near (k / base ^ s)) (hb : F.Near (m / base ^ t))
    (heq : F.roundSigned (k / base ^ s) = F.roundSigned (m / base ^ t)) :
    (k : ℚ) / base ^ s = m / base ^ t := by
  have hB : (0 : ℚ) < (base : ℚ) ^ t := by positivity
  have hmq : 2 * |(m : ℚ)| + 1 < 2 ^ F.digits := by exact_mod_cast hm
  -- everything is counted in units of the last digit
  have hcount : (k : ℚ) / base ^ s * base ^ t = ((k * base ^ (t - s) : ℤ) : ℚ) := by
    have hsplit : (base : ℚ) ^ t = base ^ s * base ^ (t - s) := by
      rw [← pow_add, Nat.add_sub_cancel' hst]
    rw [hsplit, ← mul_assoc, div_mul_cancel₀ _ (by positivity)]
    push_cast
    rfl
  have hscale : ∀ {x q : ℚ}, |x - q| ≤ |x| / 2 ^ F.digits →
      |x * base ^ t - q * base ^ t| ≤ |x * base ^ t| / 2 ^ F.digits := by
    intro x q hle
    rw [← sub_mul, abs_mul, abs_mul, mul_div_right_comm]
    exact mul_le_mul_of_nonneg_right hle (abs_nonneg _)
  unfold Near at ha hb
  rw [heq] at ha
  have ha := hscale ha
  have hb := hscale hb
  rw [hcount] at ha
  rw [div_mul_cancel₀ _ hB.ne'] at hb
  generalize F.roundSigned ((m : ℚ) / base ^ t) * base ^ t = y at ha hb
  generalize hK : k * (base : ℤ) ^ (t - s) = K at ha hcount
  have herr : |y| / 2 ^ F.digits * 2 ^ F.digits = |y| := div_mul_cancel₀ _ (by positivity)
  generalize |y| / 2 ^ F.digits = err at ha hb herr
  generalize (2 : ℚ) ^ F.digits = D at hmq herr
  -- integers that are nearer to each other than one are equal
  have hsmall : |((K - m : ℤ) : ℚ)| < 1 := by
    by_contra hfar
    have htwo : |((K - m : ℤ) : ℚ)| ≤ 2 * err := by
      rw [abs_le] at ha hb ⊢
      push_cast
      constructor <;> linarith
    have hy : err * (D - 1) ≤ |(m : ℚ)| := by
      have htri := abs_sub_abs_le_abs_sub y m
      linarith
    have hpos : 0 ≤ (2 * err - 1) * (D - 1) :=
      mul_nonneg (by linarith) (by linarith [abs_nonneg (m : ℚ)])
    linarith
  have hzero : K - m = 0 := by
    rw [← Int.abs_lt_one_iff]
    exact_mod_cast hsmall
  rw [eq_div_iff hB.ne', hcount, sub_eq_zero.mp hzero]

/-- A number that is not too large is finite. -/
theorem round_eq_ofRat (h : |F.roundSigned q| < 2 ^ F.high) :
    F.round q = ExtRat.ofRat (F.roundSigned q) := by
  rw [abs_lt] at h
  unfold round
  rw [if_neg (not_le.mpr h.2), if_neg (not_le.mpr h.1)]

theorem spacing_zpow_le {k : ℤ} (hlow : F.low ≤ k) (hdigits : 0 < F.digits) :
    F.spacing (2 ^ k) ≤ k := by
  have hlog : Int.log 2 (((2 : Nat) : ℚ) ^ k) = k := Int.log_zpow (by norm_num) k
  rw [Nat.cast_ofNat] at hlog
  unfold spacing
  omega

/-- A power of two below the rational is below the number. -/
theorem zpow_le_abs_roundSigned {k : ℤ} (hlow : F.low ≤ k) (hdigits : 0 < F.digits)
    (h : 2 ^ k ≤ |q|) : 2 ^ k ≤ |F.roundSigned q| := by
  rw [abs_roundSigned]
  exact (zpow_le_roundPos (spacing_zpow_le hlow hdigits) le_rfl).trans
    (roundPos_mono hdigits (by positivity) h)

/-- A power of two that bounds the rational bounds the number. -/
theorem abs_roundSigned_le {k : ℕ} (hlow : F.low ≤ k) (hdigits : 0 < F.digits)
    (h : |q| ≤ 2 ^ k) : |F.roundSigned q| ≤ 2 ^ k := by
  have hpow := roundPos_le_zpow (spacing_zpow_le hlow hdigits) le_rfl
  rw [zpow_natCast] at hpow
  rw [abs_roundSigned]
  exact (roundPos_mono hdigits (abs_nonneg q) h).trans hpow

end FloatFormat

/-! ## Leading digits of a power -/

/-- The square of a number that is given by its leading digits and how many binary places
    follow them. About as many digits are kept as are asked for, the last one rounded down,
    or up. -/
def squareDigits (up bits : Nat) (m : Nat × Nat) : Nat × Nat :=
  let drop := (m.1 * m.1).log2 - bits
  ((m.1 * m.1 + up * (2 ^ drop - 1)) / 2 ^ drop, 2 * m.2 + drop)

/-- Squaring again and again, rounded down. -/
theorem iterate_squareDigits_le (a bits k : Nat) :
    ((squareDigits 0 bits)^[k] (a, 0)).1 * 2 ^ ((squareDigits 0 bits)^[k] (a, 0)).2 ≤
      a ^ 2 ^ k := by
  induction k with
  | zero => simp
  | succ k ih =>
    rw [Function.iterate_succ_apply']
    generalize (squareDigits 0 bits)^[k] (a, 0) = m at ih ⊢
    dsimp only [squareDigits]
    generalize (m.1 * m.1).log2 - bits = drop
    rw [Nat.zero_mul, Nat.add_zero]
    calc m.1 * m.1 / 2 ^ drop * 2 ^ (2 * m.2 + drop)
        = m.1 * m.1 / 2 ^ drop * 2 ^ drop * 2 ^ (2 * m.2) := by ring
      _ ≤ m.1 * m.1 * 2 ^ (2 * m.2) := Nat.mul_le_mul_right _ (Nat.div_mul_le_self _ _)
      _ = (m.1 * 2 ^ m.2) ^ 2 := by ring
      _ ≤ (a ^ 2 ^ k) ^ 2 := Nat.pow_le_pow_left ih 2
      _ = a ^ 2 ^ (k + 1) := by rw [← pow_mul, pow_succ]

/-- Squaring again and again, rounded up. -/
theorem le_iterate_squareDigits (a bits k : Nat) :
    a ^ 2 ^ k ≤
      ((squareDigits 1 bits)^[k] (a, 0)).1 * 2 ^ ((squareDigits 1 bits)^[k] (a, 0)).2 := by
  induction k with
  | zero => simp
  | succ k ih =>
    rw [Function.iterate_succ_apply']
    generalize (squareDigits 1 bits)^[k] (a, 0) = m at ih ⊢
    dsimp only [squareDigits]
    generalize (m.1 * m.1).log2 - bits = drop
    have hup : m.1 * m.1 ≤ (m.1 * m.1 + 1 * (2 ^ drop - 1)) / 2 ^ drop * 2 ^ drop := by
      have hpos := Nat.two_pow_pos drop
      have hlt := Nat.lt_mul_div_succ (m.1 * m.1 + 1 * (2 ^ drop - 1)) hpos
      rw [Nat.mul_add, mul_comm (2 ^ drop)] at hlt
      omega
    calc a ^ 2 ^ (k + 1) = (a ^ 2 ^ k) ^ 2 := by rw [← pow_mul, pow_succ]
      _ ≤ (m.1 * 2 ^ m.2) ^ 2 := Nat.pow_le_pow_left ih 2
      _ = m.1 * m.1 * 2 ^ (2 * m.2) := by ring
      _ ≤ _ := Nat.mul_le_mul_right _ hup
      _ = _ := by rw [mul_assoc, ← pow_add, add_comm drop]

end Lib

end GoRdf
