import GoRdf.Core.Negotiate
import Mathlib.Data.List.TakeWhile
import Mathlib.Data.Prod.Lex

/-!
# The Format Chosen

`NegotiateAmong` keeps two running maxima. Over the ranges specificity comes before
quality, so that a range that says less never lends its quality to an offer; over the
offers quality comes first, and the earlier offer wins a tie. Neither depends on the
order of the header.

## Main definitions

* `Weighs`: The quality and the specificity that ranges give an offer.
* `FirstGreatest`: The best offer.
* `ChoosesGreatest`: The best offer is chosen, if there is one.

## Theorems

* `weigh_spec`: The loop over the ranges.
* `choose_spec`: The loop over the offers.
* `negotiateAmong_spec`: Which offer is chosen.
* `negotiateAmong_blank`: A blank header.
-/

namespace GoRdf

open List

variable {f : Format} {ranges : List MediaRange} {offers : List Format} {w w' : Nat × Int}

/-- The offer has the highest quality among the ranges that match it most specifically. -/
structure Weighs (ranges : List MediaRange) (f : Format) (w : Nat × Int) : Prop where
  matched : w.2 ≠ matchNone
  attained : ∃ r ∈ ranges, r.specificity f = w.2 ∧ r.q = w.1
  greatest : ∀ r ∈ ranges, r.specificity f ≤ w.2
  highest : ∀ r ∈ ranges, r.specificity f = w.2 → r.q ≤ w.1

/-- The offer is left, with this quality and specificity. -/
def Acceptable (ranges : List MediaRange) (f : Format) (w : Nat × Int) : Prop :=
  Weighs ranges f w ∧ w.1 ≠ 0

/-- The offer is left, the offers before it are worse and those behind it are no better. -/
def FirstGreatest (ranges : List MediaRange) (offers : List Format) (f : Format)
    (w : Nat × Int) : Prop :=
  Acceptable ranges f w ∧ ∃ before behind, offers = before ++ f :: behind ∧
    (∀ g ∈ before, ∀ v, Acceptable ranges g v → toLex v < toLex w) ∧
      ∀ g ∈ behind, ∀ v, Acceptable ranges g v → toLex v ≤ toLex w

/-- The best offer is chosen, and none exactly if none is left. -/
def ChoosesGreatest (accept : List Char) (offers : List Format) : Prop :=
  let (answer, found) := negotiateAmong accept offers
  if found then ∃ w, FirstGreatest (parseAccept accept) offers answer w
  else ∀ f ∈ offers, ∀ w, ¬ Acceptable (parseAccept accept) f w

/-! ## The ranges -/

theorem Weighs.unique (h : Weighs ranges f w) (h' : Weighs ranges f w') : w = w' := by
  obtain ⟨r, hr, hs, hq⟩ := h.attained
  obtain ⟨r', hr', hs', hq'⟩ := h'.attained
  have hspec : w.2 = w'.2 :=
    le_antisymm (hs ▸ h'.greatest r hr) (hs' ▸ h.greatest r' hr')
  have hqual : w.1 = w'.1 :=
    le_antisymm (hq ▸ h'.highest r hr (hs.trans hspec))
      (hq' ▸ h.highest r' hr' (hs'.trans hspec.symm))
  exact Prod.ext hqual hspec

theorem matchNone_le (r : MediaRange) (f : Format) : matchNone ≤ r.specificity f := by
  rw [MediaRange.specificity]
  split_ifs <;> decide

/-- The loop over the ranges finds what they give the offer, if one of them matches it. -/
theorem weigh_spec (ranges : List MediaRange) (f : Format) :
    (ranges.foldl (weighRange f) (0, matchNone) = (0, matchNone) ∧
        ∀ r ∈ ranges, r.specificity f = matchNone) ∨
      Weighs ranges f (ranges.foldl (weighRange f) (0, matchNone)) := by
  induction ranges using reverseRecOn with
  | nil => exact .inl ⟨rfl, fun r hr => absurd hr not_mem_nil⟩
  | append_singleton ranges r ih =>
    rw [foldl_append, foldl_cons, foldl_nil]
    generalize ranges.foldl (weighRange f) (0, matchNone) = acc at ih
    have hnone := matchNone_le r f
    rw [weighRange]
    rcases ih with ⟨rfl, hall⟩ | ⟨hmatched, ⟨r', hr', hs', hq'⟩, hgreatest, hhighest⟩
    · by_cases hs : r.specificity f = matchNone
      · left
        grind
      · right
        refine ⟨?_, ⟨r, ?_⟩, ?_, ?_⟩ <;> grind
    · have hle := matchNone_le r' f
      right
      refine ⟨?_, ?_, ?_, ?_⟩ <;> grind

/-! ## The offers -/

section

variable {g : Format} {w v : Nat × Int}

theorem Acceptable.unique (h : Acceptable ranges f w) (h' : Acceptable ranges f v) : w = v :=
  h.1.unique h'.1

theorem FirstGreatest.le (h : FirstGreatest ranges offers f w) (hg : g ∈ offers)
    (hv : Acceptable ranges g v) : toLex v ≤ toLex w := by
  obtain ⟨hf, before, behind, rfl, hbefore, hbehind⟩ := h
  rcases mem_append.mp hg with hg | hg
  · exact (hbefore g hg v hv).le
  · rcases mem_cons.mp hg with rfl | hg
    · rw [hv.unique hf]
    · exact hbehind g hg v hv

theorem FirstGreatest.snoc (h : FirstGreatest ranges offers f w)
    (hg : ∀ v, Acceptable ranges g v → toLex v ≤ toLex w) :
    FirstGreatest ranges (offers ++ [g]) f w := by
  obtain ⟨hf, before, behind, rfl, hbefore, hbehind⟩ := h
  refine ⟨hf, before, behind ++ [g], by simp, hbefore, ?_⟩
  rw [forall_mem_append, forall_mem_singleton]
  exact ⟨hbehind, hg⟩

end

/-- The loop over the offers keeps the best, and its start as long as none is left. -/
theorem choose_spec (ranges : List MediaRange) (offers : List Format) :
    let best := offers.foldl (chooseOffer ranges) (.unknown 0, 0, matchNone)
    (best = (.unknown 0, 0, matchNone) ∧ ∀ f ∈ offers, ∀ w, ¬ Acceptable ranges f w) ∨
      FirstGreatest ranges offers best.1 best.2 := by
  -- By the last offer, since the loop compares it with the best of those before.
  induction offers using reverseRecOn with
  | nil => exact .inl ⟨rfl, fun f hf => absurd hf not_mem_nil⟩
  | append_singleton offers f ih =>
    rw [foldl_append, foldl_cons, foldl_nil]
    generalize offers.foldl (chooseOffer ranges) _ = best at ih
    rw [chooseOffer]
    have hspec := weigh_spec ranges f
    generalize ranges.foldl (weighRange f) (0, matchNone) = w at hspec
    by_cases hleft : w.2 = matchNone ∨ w.1 = 0
    · -- Nothing accepts the offer.
      have hnone : ∀ v, ¬ Acceptable ranges f v := by
        rintro v ⟨hv, hq⟩
        rcases hspec with ⟨-, hall⟩ | hw
        · obtain ⟨r, hr, hs, -⟩ := hv.attained
          exact hv.matched (hs ▸ hall r hr)
        · rw [hv.unique hw] at hq
          exact hleft.elim hw.matched hq
      simp only [if_pos hleft]
      refine ih.imp (fun h => ⟨h.1, ?_⟩) fun h => h.snoc fun v hv => absurd hv (hnone v)
      rw [forall_mem_append, forall_mem_singleton]
      exact ⟨h.2, hnone⟩
    · simp only [if_neg hleft]
      rw [not_or] at hleft
      have hw : Acceptable ranges f w :=
        ⟨hspec.resolve_left fun h => hleft.2 (congrArg Prod.fst h.1), hleft.2⟩
      have hlex : toLex best.2 < toLex w ↔ w.1 > best.2.1 ∨ w.1 = best.2.1 ∧ w.2 > best.2.2 := by
        rw [Prod.Lex.toLex_lt_toLex, eq_comm]
      right
      split_ifs with hbetter <;> rw [← hlex] at hbetter
      · refine ⟨hw, offers, [], rfl, fun g hg v hv => ?_, fun g hg => absurd hg not_mem_nil⟩
        rcases ih with ⟨-, hall⟩ | h
        · exact absurd hv (hall g hg v)
        · exact (h.le hg hv).trans_lt hbetter
      · -- An offer with a weight is better than the start, so there was a best one already.
        rcases ih with ⟨rfl, -⟩ | h
        · exact absurd (hlex.mpr (.inl (Nat.pos_of_ne_zero hleft.2))) hbetter
        · refine h.snoc fun v hv => ?_
          rw [hv.unique hw]
          exact not_lt.mp hbetter

/-! ## The header -/

/-- The header has several elements only if a separator stands in it. -/
theorem splitQuotedFrom_cases (sep : Char) (inQuote : Bool) (cur cs : List Char) :
    splitQuotedFrom sep inQuote cur cs = [cur ++ cs] ∨
      sep ∈ cs ∧ 1 < (splitQuotedFrom sep inQuote cur cs).length := by
  fun_induction splitQuotedFrom with
  | case1 => exact .inl (by rw [append_nil])
  | case2 => grind
  | case3 => grind
  | case4 => grind
  | case5 => grind

theorem comma_not_mem {accept : List Char} (h : trimSpace accept = []) : ',' ∉ accept := by
  rw [trimSpace, reverse_eq_nil_iff, dropWhile_eq_nil_iff] at h
  rw [← takeWhile_append_dropWhile (p := isSpace) (l := accept), mem_append, not_or]
  refine ⟨fun hc => absurd (mem_takeWhile_imp hc) (by decide), fun hc => ?_⟩
  exact absurd (h ',' (mem_reverse.mpr hc)) (by decide)

/-- The elements of the headers are the same in another order. -/
def Reordered (accept accept' : List Char) : Prop :=
  (splitQuoted ',' accept).Perm (splitQuoted ',' accept')

theorem Reordered.eq_of_blank {accept accept' : List Char} (h : Reordered accept accept')
    (hblank : trimSpace accept = []) : accept' = accept := by
  have hone : splitQuoted ',' accept = [accept] :=
    (splitQuotedFrom_cases ',' false [] accept).resolve_right fun h =>
      comma_not_mem hblank h.1
  rw [Reordered, hone, perm_comm, perm_singleton] at h
  rcases splitQuotedFrom_cases ',' false [] accept' with h' | h'
  · rw [splitQuoted, h'] at h
    exact (cons.inj h).1
  · rw [← splitQuoted, h] at h'
    exact absurd h'.2 (lt_irrefl 1)

theorem Reordered.negotiateAmong_eq {accept accept' : List Char} (h : Reordered accept accept')
    (offers : List Format) : negotiateAmong accept' offers = negotiateAmong accept offers := by
  by_cases hblank : trimSpace accept = []
  · rw [h.eq_of_blank hblank]
  by_cases hblank' : trimSpace accept' = []
  · rw [Reordered.eq_of_blank h.symm hblank']
  have hperm : (parseAccept accept').Perm (parseAccept accept) := (h.filterMap parseRange).symm
  have hchoose : chooseOffer (parseAccept accept') = chooseOffer (parseAccept accept) := by
    funext best f
    have : RightCommutative (weighRange f) := ⟨by grind [weighRange]⟩
    rw [chooseOffer, chooseOffer, hperm.foldl_eq]
  cases offers with
  | nil => rfl
  | cons f offers => rw [negotiateAmong, negotiateAmong, if_neg hblank, if_neg hblank', hchoose]

/-- A header that is not blank chooses the best offer, a blank one the first; the order of
    the elements does not matter. -/
theorem negotiateAmong_spec (accept : List Char) (offers : List Format) :
    (if trimSpace accept = [] then
        negotiateAmong accept offers = (offers.headD (.unknown 0), !offers.isEmpty)
      else ChoosesGreatest accept offers) ∧
    ∀ accept', Reordered accept accept' →
      negotiateAmong accept' offers = negotiateAmong accept offers := by
  refine ⟨?_, fun accept' h => h.negotiateAmong_eq _⟩
  cases offers with
  | nil =>
    split_ifs
    · rfl
    · exact fun f hf => absurd hf not_mem_nil
  | cons f offers =>
    split_ifs with hblank
    · exact if_pos hblank
    · rw [ChoosesGreatest, negotiateAmong, if_neg hblank]
      rcases choose_spec (parseAccept accept) (f :: offers) with ⟨hnone, hall⟩ | hbest
      · rw [hnone]
        exact hall
      · have hpos := Nat.pos_of_ne_zero hbest.1.2
        dsimp only
        rw [if_pos (decide_eq_true hpos)]
        exact ⟨_, hbest⟩

/-- A blank header names no range, and gets the first offer. -/
theorem negotiateAmong_blank : ¬ ChoosesGreatest [] [.csv] := by
  rintro ⟨w, ⟨hw, -⟩, -⟩
  obtain ⟨r, hr, -⟩ := hw.attained
  exact absurd hr not_mem_nil

end GoRdf
