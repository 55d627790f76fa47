import Mathlib.Data.Set.Basic
import Mathlib.Order.Compare
import Mathlib.Tactic.Linarith

/-!
# Three-Way Comparisons

Comparisons that return a number whose sign is the answer, as the functions that
a sort calls do, and when one is a total preorder.

`glue` is the pattern that goes wrong. Some elements belong to an island: a
number, a date. Two elements of one island are compared the island's way, and all
others by a key. Each of the two is an order, but an element whose key lies
between those of two members of an island can be before the one and behind the
other while the island has them the other way round. `glue_preorderOn_iff` says
that nothing else can go wrong.

## Main definitions

* `threeWay`: The comparison of a linear order.
* `PreorderOn`: A comparison is a total preorder on a set.
* `TotalOrderOn`: It is one that only equal elements compare equal in.
* `lexically`: A comparison, and then another one of what it has equal.
* `ranked`: A comparison by rank, and then by another comparison.
* `graded`: A comparison by a fine value, or else by a coarse one.
* `glue`: A comparison by island, or else by key.

## Theorems

* `ranked_preorderOn_iff`: When a ranked comparison is a total preorder.
* `graded_preorderOn_iff`: When a graded comparison is a total preorder.
* `glue_preorderOn_iff`: When a glued comparison is a total preorder.
* `PreorderOn.comap`, `PreorderOn.image`: A total preorder seen through a function.
-/

namespace GoRdf

namespace Lib

/-- The comparison of a linear order. -/
def threeWay {κ : Type*} [LinearOrder κ] (x y : κ) : Int :=
  if x < y then -1 else if y < x then 1 else 0

/-- The comparison is a total preorder on the set. -/
structure PreorderOn {α : Type*} (S : Set α) (cmp : α → α → Int) : Prop where
  refl : ∀ a ∈ S, cmp a a = 0
  swap : ∀ a ∈ S, ∀ b ∈ S, (cmp a b).sign = -(cmp b a).sign
  trans : ∀ a ∈ S, ∀ b ∈ S, ∀ c ∈ S, cmp a b ≤ 0 → cmp b c ≤ 0 → cmp a c ≤ 0

/-- The comparison is a total order on the set: only equal elements compare equal. -/
structure TotalOrderOn {α : Type*} (S : Set α) (cmp : α → α → Int) : Prop
    extends PreorderOn S cmp where
  eq : ∀ a ∈ S, ∀ b ∈ S, cmp a b = 0 → a = b

section

variable {κ : Type*} [LinearOrder κ] {x y z : κ}

@[simp] theorem threeWay_self (x : κ) : threeWay x x = 0 := by
  simp [threeWay]

theorem threeWay_le : threeWay x y ≤ 0 ↔ x ≤ y := by
  unfold threeWay
  split_ifs with hlt hgt
  · simpa using hlt.le
  · simpa using hgt
  · simpa using not_lt.mp hgt

theorem threeWay_swap (x y : κ) : threeWay x y = -threeWay y x := by
  unfold threeWay
  rcases lt_trichotomy x y with h | rfl | h
  · rw [if_pos h, if_neg h.not_gt, if_pos h]
  · simp
  · rw [if_neg h.not_gt, if_pos h, if_pos h]
    rfl

theorem threeWay_lt : threeWay x y < 0 ↔ x < y := by
  rw [threeWay_swap, Int.neg_neg_iff_pos, ← not_le, threeWay_le, not_le]

theorem threeWay_eq : threeWay x y = 0 ↔ x = y := by
  constructor
  · intro h
    exact le_antisymm (threeWay_le.mp h.le) (threeWay_le.mp (by rw [threeWay_swap, h]; rfl))
  · rintro rfl
    exact threeWay_self x

/-- What keeps order and tells apart keeps the comparison. -/
theorem threeWay_of_mono {lam : Type*} [LinearOrder lam] {f : κ → lam} (hxy : x ≤ y → f x ≤ f y)
    (hyx : y ≤ x → f y ≤ f x) (hinj : f x = f y → x = y) :
    threeWay (f x) (f y) = threeWay x y := by
  rcases lt_trichotomy x y with h | h | h
  · have hlt : f x < f y := lt_of_le_of_ne (hxy h.le) fun heq => h.ne (hinj heq)
    rw [threeWay, if_pos hlt, threeWay, if_pos h]
  · rw [h, threeWay_self, threeWay_self]
  · have hlt : f y < f x := lt_of_le_of_ne (hyx h.le) fun heq => h.ne' (hinj heq.symm)
    rw [threeWay, if_neg hlt.not_gt, if_pos hlt, threeWay, if_neg h.not_gt, if_pos h]

end

/-! ## Total preorders -/

section

variable {α β : Type*} {S : Set α} {cmp : α → α → Int}

/-- A comparison that swaps signs says which way round two elements are. -/
theorem lt_zero_iff_of_sign {m n : Int} (h : m.sign = -n.sign) : m < 0 ↔ 0 < n := by
  rw [← Int.sign_eq_neg_one_iff_neg, ← Int.sign_eq_one_iff_pos]
  omega

/-- A total preorder seen through a function. -/
theorem PreorderOn.comap {f : β → α} {T : Set β} (hf : ∀ b ∈ T, f b ∈ S) (h : PreorderOn S cmp) :
    PreorderOn T (fun x y => cmp (f x) (f y)) where
  refl b hb := h.refl _ (hf b hb)
  swap a ha b hb := h.swap _ (hf a ha) _ (hf b hb)
  trans a ha b hb c hc := h.trans _ (hf a ha) _ (hf b hb) _ (hf c hc)

theorem PreorderOn.congr {cmp' : α → α → Int} (heq : ∀ a ∈ S, ∀ b ∈ S, cmp a b = cmp' a b) :
    PreorderOn S cmp ↔ PreorderOn S cmp' := by
  have hmove : ∀ {f g : α → α → Int}, (∀ a ∈ S, ∀ b ∈ S, f a b = g a b) → PreorderOn S f →
      PreorderOn S g := by
    intro f g hfg h
    constructor
    · intro a ha
      rw [← hfg a ha a ha]
      exact h.refl a ha
    · intro a ha b hb
      rw [← hfg a ha b hb, ← hfg b hb a ha]
      exact h.swap a ha b hb
    · intro a ha b hb c hc
      rw [← hfg a ha b hb, ← hfg b hb c hc, ← hfg a ha c hc]
      exact h.trans a ha b hb c hc
  exact ⟨hmove heq, hmove fun a ha b hb => (heq a ha b hb).symm⟩

/-- A total preorder on what a function gives. -/
theorem PreorderOn.image {f : β → α} {T : Set β} (hS : ∀ a ∈ S, ∃ b ∈ T, f b = a)
    (h : PreorderOn T fun x y => cmp (f x) (f y)) : PreorderOn S cmp := by
  constructor
  · intro a ha
    rcases hS a ha with ⟨x, hx, rfl⟩
    exact h.refl x hx
  · intro a ha b hb
    rcases hS a ha with ⟨x, hx, rfl⟩
    rcases hS b hb with ⟨y, hy, rfl⟩
    exact h.swap x hx y hy
  · intro a ha b hb c hc
    rcases hS a ha with ⟨x, hx, rfl⟩
    rcases hS b hb with ⟨y, hy, rfl⟩
    rcases hS c hc with ⟨z, hz, rfl⟩
    exact h.trans x hx y hy z hz

/-- What compares equal the one way compares equal the other way. -/
theorem PreorderOn.eq_comm (h : PreorderOn S cmp) {a b : α} (ha : a ∈ S) (hb : b ∈ S) :
    cmp a b = 0 ↔ cmp b a = 0 := by
  rw [← Int.sign_eq_zero_iff_zero, ← Int.sign_eq_zero_iff_zero (a := cmp b a), h.swap a ha b hb]
  omega

/-- A comparison, and of what it has equal another one. -/
def lexically (outer inner : α → α → Int) (a b : α) : Int :=
  if outer a b ≠ 0 then outer a b else inner a b

theorem PreorderOn.lexically {inner : α → α → Int} (houter : PreorderOn S cmp)
    (hinner : ∀ a ∈ S, PreorderOn {b | b ∈ S ∧ cmp a b = 0} inner) :
    PreorderOn S (lexically cmp inner) := by
  have hself : ∀ a ∈ S, a ∈ {b | b ∈ S ∧ cmp a b = 0} := fun a ha => ⟨ha, houter.refl a ha⟩
  constructor
  · intro a ha
    simp [Lib.lexically, houter.refl a ha, (hinner a ha).refl a (hself a ha)]
  · intro a ha b hb
    have hcomm := houter.eq_comm ha hb
    unfold Lib.lexically
    by_cases hab : cmp a b = 0
    · rw [if_neg (not_not.mpr hab), if_neg (not_not.mpr (hcomm.mp hab))]
      exact (hinner a ha).swap a (hself a ha) b ⟨hb, hab⟩
    · rw [if_pos hab, if_pos (mt hcomm.mpr hab)]
      exact houter.swap a ha b hb
  · intro a ha b hb c hc hab hbc
    unfold Lib.lexically at hab hbc ⊢
    -- both are at most equal on the outside
    have houter₁ : cmp a b ≤ 0 := by split_ifs at hab <;> omega
    have houter₂ : cmp b c ≤ 0 := by split_ifs at hbc <;> omega
    have houter₃ := houter.trans a ha b hb c hc houter₁ houter₂
    by_cases hac : cmp a c = 0
    · -- so all three are equal there, and the inside decides
      have hca := (houter.eq_comm ha hc).mp hac
      have hba := houter.trans b hb c hc a ha houter₂ hca.le
      have hcb := houter.trans c hc a ha b hb hca.le houter₁
      have hswap₁ := lt_zero_iff_of_sign (houter.swap a ha b hb)
      have hswap₂ := lt_zero_iff_of_sign (houter.swap b hb c hc)
      have hbelow : cmp a b = 0 := by omega
      rw [if_neg (by omega)] at hab hbc
      rw [if_neg (by omega)]
      exact (hinner a ha).trans a (hself a ha) b ⟨hb, hbelow⟩ c ⟨hc, hac⟩ hab hbc
    · rw [if_pos hac]
      exact houter₃

/-- A linear order is a total preorder, whatever it is read off. -/
theorem preorderOn_threeWay {κ : Type*} [LinearOrder κ] (key : α → κ) (S : Set α) :
    PreorderOn S (fun a b => threeWay (key a) (key b)) where
  refl a _ := threeWay_self _
  swap a _ b _ := by
    rw [threeWay_swap, Int.sign_neg]
  trans a _ b _ c _ hab hbc :=
    threeWay_le.mpr ((threeWay_le.mp hab).trans (threeWay_le.mp hbc))

end

/-! ## Ranked comparisons -/

section

variable {α : Type*} {S : Set α} {rank : α → Int} {outer inner : α → α → Int}

/-- A comparison by rank, and of elements of one rank by another comparison. -/
def ranked (rank : α → Int) (outer inner : α → α → Int) (a b : α) : Int :=
  if rank a = rank b then inner a b else outer a b

/-- A ranked comparison is a total preorder exactly when every rank is one. -/
theorem ranked_preorderOn_iff (houter : ∀ a b, (outer a b).sign = (rank a - rank b).sign) :
    PreorderOn S (ranked rank outer inner) ↔ ∀ r, PreorderOn {a | a ∈ S ∧ rank a = r} inner := by
  have hpos : ∀ a b, 0 < outer a b ↔ 0 < rank a - rank b := by
    intro a b
    rw [← Int.sign_eq_one_iff_pos, ← Int.sign_eq_one_iff_pos, houter]
  have hzero : ∀ a b, outer a b = 0 ↔ rank a = rank b := by
    intro a b
    rw [← Int.sign_eq_zero_iff_zero, houter, Int.sign_eq_zero_iff_zero, sub_eq_zero]
  constructor
  · intro h r
    refine (PreorderOn.congr ?_).mp (h.comap (f := id) fun a ha => ha.1)
    intro a ha b hb
    exact if_pos (ha.2.trans hb.2.symm)
  · intro h
    have hranked : ranked rank outer inner = lexically outer inner := by
      funext a b
      rw [ranked, lexically, ite_not, if_congr (hzero a b) rfl rfl]
    have hpre : PreorderOn S outer := by
      refine ⟨fun a _ => (hzero a a).mpr rfl, fun a _ b _ => ?_, fun a _ b _ c _ hab hbc => ?_⟩
      · rw [houter, houter, ← Int.sign_neg, neg_sub]
      · have hab := mt (hpos a b).mpr hab.not_gt
        have hbc := mt (hpos b c).mpr hbc.not_gt
        exact not_lt.mp (mt (hpos a c).mp (by omega))
    rw [hranked]
    refine hpre.lexically fun a _ => (h (rank a)).comap (f := id) fun b hb => ?_
    exact ⟨hb.1, ((hzero a b).mp hb.2).symm⟩

end

/-! ## Graded comparisons -/

section

variable {α φ κ : Type*} [LinearOrder φ] [LinearOrder κ] {S : Set α} {fine : α → Option φ}
  {coarse : α → κ}

/-- A comparison by a fine value, where both have one, and else by a coarse one. -/
def graded (fine : α → Option φ) (coarse : α → κ) (a b : α) : Int :=
  match fine a, fine b with
  | some x, some y => threeWay x y
  | _, _ => threeWay (coarse a) (coarse b)

/-- No element without a fine value has the coarse value of two with different ones. -/
def Unstraddled (S : Set α) (fine : α → Option φ) (coarse : α → κ) : Prop :=
  ∀ a ∈ S, ∀ b ∈ S, ∀ d ∈ S, ∀ x ∈ fine a, ∀ y ∈ fine b, fine d = none →
    coarse a = coarse d → coarse b = coarse d → x = y

theorem graded_fine {a b : α} {x y : φ} (ha : fine a = some x) (hb : fine b = some y) :
    graded fine coarse a b = threeWay x y := by
  rw [graded, ha, hb]

theorem graded_coarse {a b : α} (h : fine a = none ∨ fine b = none) :
    graded fine coarse a b = threeWay (coarse a) (coarse b) := by
  rw [graded]
  rcases h with ha | hb
  · rw [ha]
  · rw [hb]
    cases fine a <;> rfl

theorem graded_swap (a b : α) : graded fine coarse a b = -graded fine coarse b a := by
  unfold graded
  cases fine a <;> cases fine b <;> exact threeWay_swap _ _

/-- A graded comparison is a total preorder exactly when it is not straddled, where
    coarse values follow fine ones. -/
theorem graded_preorderOn_iff
    (hmono : ∀ a ∈ S, ∀ b ∈ S, ∀ x ∈ fine a, ∀ y ∈ fine b, x ≤ y → coarse a ≤ coarse b) :
    PreorderOn S (graded fine coarse) ↔ Unstraddled S fine coarse := by
  -- what is at most something is so in its coarse value
  have hcoarse : ∀ a ∈ S, ∀ b ∈ S, graded fine coarse a b ≤ 0 → coarse a ≤ coarse b := by
    intro a ha b hb hle
    unfold graded at hle
    split at hle
    · rename_i x y hx hy
      exact hmono a ha b hb x hx y hy (threeWay_le.mp hle)
    · exact threeWay_le.mp hle
  constructor
  · intro h a ha b hb d hd x hx y hy hnone had hbd
    -- through the one without a fine value, each of the two is at most the other
    have hle : ∀ p ∈ S, ∀ q ∈ S, coarse p = coarse d → coarse q = coarse d →
        graded fine coarse p q ≤ 0 := by
      intro p hp q hq hpd hqd
      refine h.trans p hp d hd q hq ?_ ?_
      · rw [graded_coarse (.inr hnone), threeWay_le, hpd]
      · rw [graded_coarse (.inl hnone), threeWay_le, hqd]
    have hxy := hle a ha b hb had hbd
    have hyx := hle b hb a ha hbd had
    rw [graded_fine hx hy, threeWay_le] at hxy
    rw [graded_fine hy hx, threeWay_le] at hyx
    exact le_antisymm hxy hyx
  · intro h
    constructor
    · intro a _
      have hswap : graded fine coarse a a = -graded fine coarse a a := graded_swap a a
      omega
    · intro a _ b _
      rw [graded_swap, Int.sign_neg]
    · intro a ha b hb c hc hab hbc
      have hab' := hcoarse a ha b hb hab
      have hbc' := hcoarse b hb c hc hbc
      rw [graded]
      split
      · rename_i x z hx hz
        rw [threeWay_le]
        cases hy : fine b with
        | some y =>
          rw [graded_fine hx hy, threeWay_le] at hab
          rw [graded_fine hy hz, threeWay_le] at hbc
          exact hab.trans hbc
        | none =>
          -- if the last is before the first, all coarse values are equal
          by_contra hlt
          have hca := hmono c hc a ha z hz x hx (not_le.mp hlt).le
          have heq := h a ha c hc b hb x hx z hz hy
            (le_antisymm hab' (hbc'.trans hca)) (le_antisymm (hca.trans hab') hbc')
          exact hlt heq.le
      · exact threeWay_le.mpr (hab'.trans hbc')

end

/-! ## Glued comparisons -/

section

variable {α ι κ : Type*} [DecidableEq ι] [LinearOrder κ]

/-- A comparison by island, for two elements of one island, and by key otherwise. -/
def glue (island : α → Option ι) (inner : α → α → Int) (key : α → κ) (a b : α) : Int :=
  if island a = island b ∧ (island a).isSome = true then inner a b
  else threeWay (key a) (key b)

/-- No key outside an island lies between those of two members that the island has
    the other way round, or has equal. -/
def Unbroken (S : Set α) (island : α → Option ι) (inner : α → α → Int) (key : α → κ) : Prop :=
  ∀ a ∈ S, ∀ b ∈ S, ∀ c ∈ S, island a = island b → (island a).isSome = true →
    island c ≠ island a → key a < key c → key c < key b → inner a b < 0

/-- The comparison of every island is transitive. -/
def IslandsTransitive (S : Set α) (island : α → Option ι) (inner : α → α → Int) : Prop :=
  ∀ a ∈ S, ∀ b ∈ S, ∀ c ∈ S, island a = island b → island b = island c →
    (island a).isSome = true → inner a b ≤ 0 → inner b c ≤ 0 → inner a c ≤ 0

variable {S : Set α} {island : α → Option ι} {inner : α → α → Int} {key : α → κ}

omit [DecidableEq ι] in
/-- The islands are transitive exactly when each is a total preorder. -/
theorem islandsTransitive_iff (hrefl : ∀ a ∈ S, inner a a = 0)
    (hswap : ∀ a ∈ S, ∀ b ∈ S, (inner a b).sign = -(inner b a).sign) :
    IslandsTransitive S island inner ↔ ∀ i, PreorderOn {a | a ∈ S ∧ island a = some i} inner := by
  constructor
  · intro h i
    constructor
    · exact fun a ha => hrefl a ha.1
    · exact fun a ha b hb => hswap a ha.1 b hb.1
    · intro a ha b hb c hc
      exact h a ha.1 b hb.1 c hc.1 (ha.2.trans hb.2.symm) (hb.2.trans hc.2.symm) (by simp [ha.2])
  · intro h a ha b hb c hc hab hbc hsome
    rcases Option.isSome_iff_exists.mp hsome with ⟨i, hi⟩
    exact (h i).trans a ⟨ha, hi⟩ b ⟨hb, hab ▸ hi⟩ c ⟨hc, hbc ▸ hab ▸ hi⟩

theorem glue_inner {a b : α} (h : island a = island b) (hsome : (island a).isSome = true) :
    glue island inner key a b = inner a b :=
  if_pos ⟨h, hsome⟩

theorem glue_key {a b : α} (h : island a ≠ island b) :
    glue island inner key a b = threeWay (key a) (key b) :=
  if_neg fun hand => h hand.1

/-- A glued comparison is a total preorder exactly when its islands are transitive
    and unbroken, where keys tell islands apart. -/
theorem glue_preorderOn_iff (hrefl : ∀ a ∈ S, inner a a = 0)
    (hswap : ∀ a ∈ S, ∀ b ∈ S, (inner a b).sign = -(inner b a).sign)
    (hkey : ∀ a ∈ S, ∀ b ∈ S, key a = key b → island a = island b) :
    PreorderOn S (glue island inner key) ↔
      IslandsTransitive S island inner ∧ Unbroken S island inner key := by
  -- keys of different islands differ, so that comparing them is strict
  have hne : ∀ a ∈ S, ∀ b ∈ S, island a ≠ island b → key a ≤ key b → key a < key b :=
    fun a ha b hb hab hle => lt_of_le_of_ne hle fun heq => hab (hkey a ha b hb heq)
  constructor
  · intro h
    constructor
    · intro a ha b hb c hc hab hbc hsome hle₁ hle₂
      have htrans := h.trans a ha b hb c hc
      rw [glue_inner hab hsome, glue_inner hbc (hab ▸ hsome),
        glue_inner (hab.trans hbc) hsome] at htrans
      exact htrans hle₁ hle₂
    · intro a ha b hb c hc hab hsome hca hac hcb
      -- otherwise `b` is at most `a`, `a` is before `c`, and `c` is before `b`
      by_contra hnot
      have hba : inner b a ≤ 0 := by
        have hsign := lt_zero_iff_of_sign (hswap a ha b hb)
        omega
      have htrans := h.trans b hb a ha c hc
      rw [glue_inner hab.symm (hab ▸ hsome), glue_key hca.symm, glue_key (hab ▸ hca.symm),
        threeWay_le, threeWay_le] at htrans
      exact absurd hcb (not_lt.mpr (htrans hba hac.le))
  · rintro ⟨hinner, hunbroken⟩
    constructor
    · intro a ha
      unfold glue
      split_ifs
      · exact hrefl a ha
      · exact threeWay_self _
    · intro a ha b hb
      unfold glue
      by_cases hab : island a = island b ∧ (island a).isSome = true
      · rw [if_pos hab, if_pos ⟨hab.1.symm, hab.1 ▸ hab.2⟩]
        exact hswap a ha b hb
      · have hba : ¬ (island b = island a ∧ (island b).isSome = true) := fun hba =>
          hab ⟨hba.1.symm, hba.1 ▸ hba.2⟩
        rw [if_neg hab, if_neg hba, threeWay_swap, Int.sign_neg]
    · intro a ha b hb c hc hle₁ hle₂
      -- whether two of the three are of one island, and the third is not
      have hout : ∀ {x y}, ¬ (island x = island y ∧ (island x).isSome = true) →
          glue island inner key x y = threeWay (key x) (key y) := fun h => if_neg h
      have hsigns : ∀ x ∈ S, ∀ y ∈ S, inner x y < 0 ↔ 0 < inner y x := fun x hx y hy =>
        lt_zero_iff_of_sign (hswap x hx y hy)
      by_cases hab : island a = island b ∧ (island a).isSome = true
      · rw [glue_inner hab.1 hab.2] at hle₁
        by_cases hbc : island b = island c
        · rw [glue_inner hbc (hab.1 ▸ hab.2)] at hle₂
          rw [glue_inner (hab.1.trans hbc) hab.2]
          exact hinner a ha b hb c hc hab.1 hbc hab.2 hle₁ hle₂
        · rw [glue_key hbc, threeWay_le] at hle₂
          rw [glue_key (hab.1 ▸ hbc), threeWay_le]
          by_contra hnot
          have hlt := hunbroken b hb a ha c hc hab.1.symm (hab.1 ▸ hab.2) (Ne.symm hbc)
            (hne b hb c hc hbc hle₂) (not_le.mp hnot)
          have hsign := hsigns b hb a ha
          omega
      · rw [hout hab, threeWay_le] at hle₁
        by_cases hbc : island b = island c ∧ (island b).isSome = true
        · have hac : island a ≠ island b := fun heq => hab ⟨heq, heq ▸ hbc.2⟩
          rw [glue_inner hbc.1 hbc.2] at hle₂
          rw [glue_key (hbc.1 ▸ hac), threeWay_le]
          by_contra hnot
          have hlt := hunbroken c hc b hb a ha hbc.1.symm (hbc.1 ▸ hbc.2) (hbc.1 ▸ hac)
            (not_le.mp hnot) (hne a ha b hb hac hle₁)
          have hsign := hsigns c hc b hb
          omega
        · rw [hout hbc, threeWay_le] at hle₂
          by_cases hac : island a = island c ∧ (island a).isSome = true
          · have hba : island b ≠ island a := fun heq => hab ⟨heq.symm, hac.2⟩
            rw [glue_inner hac.1 hac.2]
            exact (hunbroken a ha c hc b hb hac.1 hac.2 hba (hne a ha b hb hba.symm hle₁)
              (hne b hb c hc (hac.1 ▸ hba) hle₂)).le
          · rw [hout hac, threeWay_le]
            exact hle₁.trans hle₂

end

end Lib

end GoRdf
