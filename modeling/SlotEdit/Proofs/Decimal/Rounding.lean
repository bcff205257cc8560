import Mathlib.Algebra.Order.Field.Power
import Mathlib.Data.Rat.Cast.Order
import Mathlib.Tactic.FieldSimp
import Mathlib.Tactic.Linarith
import Mathlib.Tactic.NormNum
import Mathlib.Tactic.Positivity
import Mathlib.Tactic.Ring
import SlotEdit.Decimal.Shortest

/-!
# Proofs/Decimal/Rounding — which quotients round to a number

A number takes all quotients between the ends of an interval around it, half a unit to either side
but a quarter below a power of two; the ends belong to it when its significand is even (`Near`).
`ofRatio` gives just that number for each of them (`ofRatio_eq`), and never one that is out of form
(`canonical_ofRatio`).
-/

namespace SlotEdit.Binary64

/-! ## Numbers in their form -/

/-- **A significand and an exponent in their form**: the exponent is as small as it can be. -/
structure InForm (m : Nat) (e : Int) : Prop where
  lt : m < 2 ^ 53
  least : leastExponent ≤ e
  greatest : e ≤ greatestExponent
  normal : 2 ^ 52 ≤ m ∨ e = leastExponent

/-- **A number in its form.** -/
def Canonical : Binary64 → Prop
  | .finite _ m e => InForm m e
  | _ => True

/-! ## Powers -/

theorem scaleByPow_spec {base : Nat} (hbase : 0 < base) (num : Nat) {den : Nat} (hden : 0 < den) (e : Int) :
    0 < (scaleByPow base num den e).2 ∧
      ((scaleByPow base num den e).1 : ℚ) / (scaleByPow base num den e).2 = num / den / (base : ℚ) ^ e := by
  have hb : (base : ℚ) ≠ 0 := Nat.cast_ne_zero.mpr hbase.ne'
  have hd : (den : ℚ) ≠ 0 := Nat.cast_ne_zero.mpr hden.ne'
  rw [scaleByPow]
  split
  · next he =>
    obtain ⟨k, rfl⟩ := Int.eq_ofNat_of_zero_le he
    refine ⟨Nat.mul_pos hden (Nat.pow_pos hbase), ?_⟩
    simp only [Int.toNat_natCast, Nat.cast_mul, Nat.cast_pow, zpow_natCast, div_div]
  · next he =>
    obtain ⟨k, hk⟩ := Int.eq_ofNat_of_zero_le (show 0 ≤ -e by omega)
    obtain rfl : e = -(k : Int) := by omega
    refine ⟨hden, ?_⟩
    simp only [neg_neg, Int.toNat_natCast, Nat.cast_mul, Nat.cast_pow, zpow_neg, zpow_natCast, div_inv_eq_mul]
    field_simp

/-- A power of two is known by what lies above it and below the next. -/
theorem exponent_eq {q : ℚ} {k l : Int} (hk : (2 : ℚ) ^ k ≤ q) (hk' : q < (2 : ℚ) ^ (k + 1))
    (hl : (2 : ℚ) ^ l ≤ q) (hl' : q < (2 : ℚ) ^ (l + 1)) : k = l := by
  have h₁ := (zpow_lt_zpow_iff_right₀ (by norm_num : (1 : ℚ) < 2)).mp (hk.trans_lt hl')
  have h₂ := (zpow_lt_zpow_iff_right₀ (by norm_num : (1 : ℚ) < 2)).mp (hl.trans_lt hk')
  omega

/-- **The binary logarithm** is rounded down. -/
theorem floorLog2_spec {num den : Nat} (hnum : 0 < num) (hden : 0 < den) :
    (2 : ℚ) ^ floorLog2 num den ≤ num / den ∧ (num : ℚ) / den < (2 : ℚ) ^ (floorLog2 num den + 1) := by
  have hd : (0 : ℚ) < den := Nat.cast_pos.mpr hden
  -- both logarithms are known up to one, so the guess is right or one too large
  have hnum₁ : (2 : ℚ) ^ (num.log2 : Int) ≤ num := by
    rw [zpow_natCast]; exact_mod_cast Nat.log2_self_le hnum.ne'
  have hnum₂ : (num : ℚ) < 2 ^ ((num.log2 : Int) + 1) := by
    rw [← Nat.cast_succ, zpow_natCast]; exact_mod_cast Nat.lt_log2_self
  have hden₁ : (2 : ℚ) ^ (den.log2 : Int) ≤ den := by
    rw [zpow_natCast]; exact_mod_cast Nat.log2_self_le hden.ne'
  have hden₂ : (den : ℚ) < 2 ^ ((den.log2 : Int) + 1) := by
    rw [← Nat.cast_succ, zpow_natCast]; exact_mod_cast Nat.lt_log2_self
  have two : (2 : ℚ) ≠ 0 := by norm_num
  have hlow : (2 : ℚ) ^ ((num.log2 : Int) - den.log2 - 1) ≤ num / den := by
    rw [le_div_iff₀ hd]
    calc (2 : ℚ) ^ ((num.log2 : Int) - den.log2 - 1) * den
        ≤ 2 ^ ((num.log2 : Int) - den.log2 - 1) * 2 ^ ((den.log2 : Int) + 1) := by gcongr
      _ = 2 ^ (num.log2 : Int) := by rw [← zpow_add₀ two]; congr 1; ring
      _ ≤ num := hnum₁
  have hhigh : (num : ℚ) / den < 2 ^ ((num.log2 : Int) - den.log2 + 1) := by
    rw [div_lt_iff₀ hd]
    calc (num : ℚ) < 2 ^ ((num.log2 : Int) + 1) := hnum₂
      _ = 2 ^ ((num.log2 : Int) - den.log2 + 1) * 2 ^ (den.log2 : Int) := by rw [← zpow_add₀ two]; congr 1; ring
      _ ≤ 2 ^ ((num.log2 : Int) - den.log2 + 1) * den := by gcongr
  obtain ⟨hpos, hscale⟩ := scaleByPow_spec (show 0 < 2 by decide) num hden ((num.log2 : Int) - den.log2)
  have hlt : (scaleByPow 2 num den ((num.log2 : Int) - den.log2)).1 <
      (scaleByPow 2 num den ((num.log2 : Int) - den.log2)).2 ↔
        (num : ℚ) / den < 2 ^ ((num.log2 : Int) - den.log2) := by
    rw [← Nat.cast_lt (α := ℚ), ← div_lt_one (Nat.cast_pos.mpr hpos), hscale, Nat.cast_ofNat,
      div_lt_one (by positivity)]
  rw [floorLog2]
  dsimp only
  split
  · next h => exact ⟨hlow, by rw [sub_add_cancel]; exact hlt.mp h⟩
  · next h => exact ⟨not_lt.mp (mt hlt.mpr h), hhigh⟩

/-! ## Rounding to an integer -/

/-- **The nearest integer**, a half to the even one. -/
theorem roundQuotient_eq {n d k : Nat} (hlow : 2 * k * d ≤ 2 * n + d) (hhigh : 2 * n ≤ 2 * k * d + d)
    (heven : 2 * k * d = 2 * n + d ∨ 2 * n = 2 * k * d + d → k % 2 = 0) (hd : 0 < d) : roundQuotient n d = k := by
  have hdiv := Nat.div_add_mod n d
  have hmod := Nat.mod_lt n hd
  rw [roundQuotient]
  generalize n / d = q at *
  generalize n % d = r at *
  subst hdiv
  have hle : k ≤ q + 1 := by
    by_contra hlt
    have := Nat.mul_le_mul_right d (show q + 2 ≤ k by omega)
    nlinarith
  have hge : q ≤ k := by
    by_contra hlt
    have := Nat.mul_le_mul_right d (show k + 1 ≤ q by omega)
    nlinarith
  obtain rfl | rfl : k = q ∨ k = q + 1 := by omega
  · have htwice : 2 * r ≤ d := by nlinarith
    rw [if_neg (by omega : ¬ 2 * r > d)]
    split
    · rfl
    · have := heven (.inr (by nlinarith))
      omega
  · have htwice : d ≤ 2 * r := by nlinarith
    rw [if_neg (by omega : ¬ 2 * r < d)]
    split
    · rfl
    · have := heven (.inl (by nlinarith))
      omega

/-- A quotient between whole numbers is rounded to one between them. -/
theorem roundQuotient_bounds {n d k l : Nat} (hk : k * d ≤ n) (hl : n < l * d) (hd : 0 < d) :
    k ≤ roundQuotient n d ∧ roundQuotient n d ≤ l := by
  have hlow : k ≤ n / d := (Nat.le_div_iff_mul_le hd).mpr hk
  have hhigh : n / d < l := (Nat.div_lt_iff_lt_mul hd).mpr hl
  rw [roundQuotient]
  split
  · omega
  · split <;> omega

/-! ## The interval of a number -/

/-- The lower end of the quotients that round to a number. -/
def lowEnd (m : Nat) (e : Int) : ℚ :=
  (m - if m = 2 ^ 52 ∧ e > leastExponent then 1 / 4 else 1 / 2) * 2 ^ e

/-- The upper end of the quotients that round to a number. -/
def highEnd (m : Nat) (e : Int) : ℚ := (m + 1 / 2) * 2 ^ e

/-- **A quotient rounds to a number**: it lies between the ends, or on one when the significand is even. -/
structure Near (m : Nat) (e : Int) (q : ℚ) : Prop where
  low : lowEnd m e ≤ q
  high : q ≤ highEnd m e
  even : q = lowEnd m e ∨ q = highEnd m e → m % 2 = 0

variable {m : Nat} {e : Int} {q : ℚ}

theorem quarter_le (m : Nat) (e : Int) :
    (1 / 4 : ℚ) ≤ (if m = 2 ^ 52 ∧ e > leastExponent then 1 / 4 else 1 / 2) ∧
      (if m = 2 ^ 52 ∧ e > leastExponent then 1 / 4 else 1 / 2 : ℚ) ≤ 1 / 2 := by
  split <;> norm_num

theorem Near.pos (h : Near m e q) (hm : 0 < m) : 0 < q := by
  refine lt_of_lt_of_le ?_ h.low
  have hm' : (1 : ℚ) ≤ m := by exact_mod_cast hm
  have := quarter_le m e
  exact mul_pos (by linarith) (by positivity)

/-- A quotient that is a significand up to a half, in units of an exponent, rounds to it. -/
theorem roundQuotient_of_near {n d : Nat} (hd : 0 < d) {k : Nat} (hq : (n : ℚ) / d = q)
    (hlow : (k : ℚ) - 1 / 2 ≤ q) (hhigh : q ≤ k + 1 / 2)
    (heven : q = k - 1 / 2 ∨ q = k + 1 / 2 → k % 2 = 0) : roundQuotient n d = k := by
  have hd' : (0 : ℚ) < d := Nat.cast_pos.mpr hd
  have hn : (n : ℚ) = q * d := by rw [← hq, div_mul_cancel₀ _ hd'.ne']
  refine roundQuotient_eq ?_ ?_ (fun h => heven ?_) hd
  · have : (2 : ℚ) * k * d ≤ 2 * n + d := by rw [hn]; nlinarith
    exact_mod_cast this
  · have : (2 : ℚ) * n ≤ 2 * k * d + d := by rw [hn]; nlinarith
    exact_mod_cast this
  · refine h.imp (fun h => ?_) fun h => ?_
    · have h' : (2 : ℚ) * k * d = 2 * n + d := by exact_mod_cast h
      rw [hn] at h'
      have := mul_right_cancel₀ hd'.ne' (show (q * d : ℚ) = (k - 1 / 2) * d by linarith)
      exact this
    · have h' : (2 : ℚ) * n = 2 * k * d + d := by exact_mod_cast h
      rw [hn] at h'
      exact mul_right_cancel₀ hd'.ne' (show (q * d : ℚ) = (k + 1 / 2) * d by linarith)

/-! ## Rounding a quotient -/

/-- What is made of a quotient, once its exponent is known. -/
theorem ofRatio_of_exponent (negative : Bool) {num den : Nat} (hnum : 0 < num) (hden : 0 < den) {e : Int}
    (he : max (floorLog2 num den - 52) leastExponent = e) :
    ∃ n d : Nat, 0 < d ∧ (n : ℚ) / d = num / den / 2 ^ e ∧ ofRatio negative num den =
      if roundQuotient n d = 2 ^ 53 then
        if e + 1 > greatestExponent then .infinite negative else .finite negative (2 ^ 52) (e + 1)
      else if e > greatestExponent then .infinite negative else .finite negative (roundQuotient n d) e := by
  obtain ⟨hpos, hscale⟩ := scaleByPow_spec (show 0 < 2 by decide) num hden e
  refine ⟨_, _, hpos, hscale, ?_⟩
  rw [ofRatio, if_neg hnum.ne', he]
  dsimp only
  split <;> rfl

/-- **Each quotient near a number rounds to it.** -/
theorem ofRatio_eq (negative : Bool) {num den : Nat} (hden : 0 < den) (hform : InForm m e) (hm : 0 < m)
    (hnear : Near m e ((num : ℚ) / den)) : ofRatio negative num den = .finite negative m e := by
  have hq := hnear.pos hm
  have hnum : 0 < num := by
    refine Nat.pos_of_ne_zero ?_
    rintro rfl
    rw [Nat.cast_zero, zero_div] at hq
    exact lt_irrefl 0 hq
  obtain ⟨hlog, hlog'⟩ := floorLog2_spec hnum hden
  have hlow := hnear.low
  have hhigh := hnear.high
  have two : (2 : ℚ) ≠ 0 := by norm_num
  have hunit : (0 : ℚ) < 2 ^ e := by positivity
  have hhalf := quarter_le m e
  have hlt : (m : ℚ) + 1 ≤ 2 ^ 53 := by exact_mod_cast hform.lt
  have hpow (k : Nat) : (2 : ℚ) ^ (e + k) = 2 ^ k * 2 ^ e := by
    rw [zpow_add₀ two, zpow_natCast, mul_comm]
  rw [lowEnd] at hlow
  rw [highEnd] at hhigh
  by_cases hbelow : m = 2 ^ 52 ∧ e > leastExponent ∧ (num : ℚ) / den < 2 ^ 52 * 2 ^ e
  · -- just below a power of two the units are half as large, and the significand is rounded up to it
    obtain ⟨rfl, hleast, hlt'⟩ := hbelow
    rw [if_pos ⟨rfl, hleast⟩] at hlow
    have hexp : floorLog2 num den = e + 51 := by
      refine exponent_eq hlog hlog' ?_ ?_
      · have h := hpow 51
        rw [Nat.cast_ofNat] at h
        rw [h]
        push_cast at hlow
        nlinarith
      · have h := hpow 52
        rw [Nat.cast_ofNat] at h
        rw [show e + 51 + 1 = e + 52 by ring, h]
        exact hlt'
    have he : max (floorLog2 num den - 52) leastExponent = e - 1 := by
      rw [hexp]
      omega
    obtain ⟨n, d, hd, hnd, hmade⟩ := ofRatio_of_exponent negative hnum hden he
    have hhalved : (2 : ℚ) ^ (e - 1) = 2 ^ e / 2 := by rw [zpow_sub_one₀ two, div_eq_mul_inv]
    have hround : roundQuotient n d = 2 ^ 53 := by
      have hlow' : ((2 ^ 53 : Nat) : ℚ) - 1 / 2 ≤ (num : ℚ) / den / 2 ^ (e - 1) := by
        rw [hhalved, le_div_iff₀ (by positivity)]
        push_cast at hlow ⊢
        linarith
      have hhigh' : (num : ℚ) / den / 2 ^ (e - 1) ≤ ((2 ^ 53 : Nat) : ℚ) + 1 / 2 := by
        rw [hhalved, div_le_iff₀ (by positivity)]
        push_cast
        nlinarith
      exact roundQuotient_of_near hd hnd hlow' hhigh' fun _ => by decide
    rw [hmade, if_pos hround, sub_add_cancel, if_neg (not_lt.mpr hform.greatest)]
  · have he : max (floorLog2 num den - 52) leastExponent = e := by
      have hup : (num : ℚ) / den < 2 ^ (e + 53) := by
        have h := hpow 53
        rw [Nat.cast_ofNat] at h
        rw [h]
        nlinarith
      have hle : floorLog2 num den < e + 53 :=
        (zpow_lt_zpow_iff_right₀ (by norm_num : (1 : ℚ) < 2)).mp (hlog.trans_lt hup)
      rcases eq_or_lt_of_le hform.least with hleast | hleast
      · omega
      · have hnormal := hform.normal.resolve_right hleast.ne'
        have hge : (2 : ℚ) ^ 52 * 2 ^ e ≤ num / den := by
          by_contra hlt'
          refine hbelow ⟨?_, hleast, not_le.mp hlt'⟩
          by_contra hne
          have : (2 : ℚ) ^ 52 + 1 ≤ m := by exact_mod_cast (show 2 ^ 52 + 1 ≤ m by omega)
          nlinarith
        have hexp : floorLog2 num den = e + 52 := by
          have h := hpow 52
          rw [Nat.cast_ofNat] at h
          refine exponent_eq hlog hlog' (h ▸ hge) ?_
          rw [show e + 52 + 1 = e + 53 by ring]
          exact hup
        omega
    obtain ⟨n, d, hd, hnd, hmade⟩ := ofRatio_of_exponent negative hnum hden he
    have hround : roundQuotient n d = m := by
      refine roundQuotient_of_near hd hnd ?_ ?_ ?_
      · rw [le_div_iff₀ hunit]
        nlinarith
      · rw [div_le_iff₀ hunit]
        linarith
      · rintro (heq | heq)
        · rw [div_eq_iff hunit.ne'] at heq
          by_cases hquarter : m = 2 ^ 52 ∧ e > leastExponent
          · rw [hquarter.1]
            norm_num
          · exact hnear.even (.inl (by rw [lowEnd, if_neg hquarter, heq]))
        · rw [div_eq_iff hunit.ne'] at heq
          exact hnear.even (.inr heq)
    rw [hmade, hround, if_neg hform.lt.ne, if_neg (not_lt.mpr hform.greatest)]

/-- **Rounding a quotient gives a number in its form**, or an infinity. -/
theorem canonical_ofRatio (negative : Bool) (num : Nat) {den : Nat} (hden : 0 < den) :
    (ofRatio negative num den).Canonical := by
  rcases Nat.eq_zero_or_pos num with rfl | hnum
  · exact ⟨by decide, le_refl _, by decide, .inr rfl⟩
  obtain ⟨hlog, hlog'⟩ := floorLog2_spec hnum hden
  generalize he : max (floorLog2 num den - 52) leastExponent = e
  obtain ⟨n, d, hd, hnd, hmade⟩ := ofRatio_of_exponent negative hnum hden he
  have hd' : (0 : ℚ) < d := Nat.cast_pos.mpr hd
  have hunit : (0 : ℚ) < 2 ^ e := by positivity
  have two : (2 : ℚ) ≠ 0 := by norm_num
  have hn : (n : ℚ) * 2 ^ e = num / den * d := by
    rw [div_eq_iff hd'.ne'] at hnd
    rw [hnd]
    field_simp
  have hup : roundQuotient n d ≤ 2 ^ 53 := by
    have hlt : n < 2 ^ 53 * d := by
      have hbound : (num : ℚ) / den < 2 ^ 53 * 2 ^ e := by
        refine hlog'.trans_le ?_
        rw [← zpow_natCast, ← zpow_add₀ two]
        exact zpow_le_zpow_right₀ (by norm_num) (by push_cast; omega)
      have : (n : ℚ) < 2 ^ 53 * d := by nlinarith
      exact_mod_cast this
    exact (roundQuotient_bounds (Nat.zero_mul d ▸ Nat.zero_le n) hlt hd).2
  have hlow (h : leastExponent < e) : 2 ^ 52 ≤ roundQuotient n d := by
    have hle : 2 ^ 52 * d ≤ n := by
      have hbound : (2 : ℚ) ^ 52 * 2 ^ e ≤ num / den := by
        refine le_trans ?_ hlog
        rw [← zpow_natCast, ← zpow_add₀ two]
        exact zpow_le_zpow_right₀ (by norm_num) (by push_cast; omega)
      have : (2 : ℚ) ^ 52 * d ≤ n := by nlinarith
      exact_mod_cast this
    exact (roundQuotient_bounds hle (l := n + 1) (Nat.lt_of_lt_of_le (Nat.lt_succ_self n)
      (Nat.le_mul_of_pos_right _ hd)) hd).1
  rw [hmade]
  split
  · split
    · exact trivial
    · next hgreatest => exact ⟨by decide, by omega, not_lt.mp hgreatest, .inl (le_refl _)⟩
  · next hne =>
    split
    · exact trivial
    · next hgreatest =>
      refine ⟨by omega, by omega, not_lt.mp hgreatest, ?_⟩
      rcases eq_or_lt_of_le (show leastExponent ≤ e by omega) with hleast | hleast
      · exact .inr hleast.symm
      · exact .inl (hlow hleast)

/-! ## Rounding a decimal -/

theorem canonical_ofDecimal (negative : Bool) (digits : Nat) (exponent : Int) :
    (ofDecimal negative digits exponent).Canonical := by
  have hzero : (finite negative 0 leastExponent).Canonical := ⟨by decide, le_refl _, by decide, .inr rfl⟩
  rw [ofDecimal]
  split
  · exact hzero
  · dsimp only
    split
    · exact hzero
    · split
      · exact trivial
      · split
        · exact canonical_ofRatio negative _ Nat.one_pos
        · exact canonical_ofRatio negative _ (Nat.pow_pos (by decide))

/-- No number reaches down to half of the least positive one. -/
theorem least_le_lowEnd (hform : InForm m e) (hm : 0 < m) : (2 : ℚ) ^ (-1075 : Int) ≤ lowEnd m e := by
  have hm' : (1 : ℚ) ≤ m := by exact_mod_cast hm
  have hhalf := quarter_le m e
  have hunit : (2 : ℚ) ^ (-1074 : Int) ≤ 2 ^ e := zpow_le_zpow_right₀ (by norm_num) hform.least
  have heq : (2 : ℚ) ^ (-1075 : Int) = 1 / 2 * 2 ^ (-1074 : Int) := by
    rw [show (-1075 : Int) = -1074 - 1 by norm_num, zpow_sub_one₀ (by norm_num)]
    ring
  have hpos : (0 : ℚ) < 2 ^ (-1074 : Int) := by positivity
  rw [heq, lowEnd]
  nlinarith

/-- No number reaches up to the power of two behind the greatest one. -/
theorem highEnd_le (hform : InForm m e) : highEnd m e ≤ 2 ^ (1024 : Int) := by
  have hunit : (2 : ℚ) ^ e ≤ 2 ^ (971 : Int) := zpow_le_zpow_right₀ (by norm_num) hform.greatest
  have hlt : (m : ℚ) + 1 ≤ 2 ^ 53 := by exact_mod_cast hform.lt
  have hpos : (0 : ℚ) < 2 ^ e := by positivity
  calc highEnd m e ≤ 2 ^ 53 * 2 ^ (971 : Int) := mul_le_mul (by linarith) hunit hpos.le (by norm_num)
    _ = 2 ^ (1024 : Int) := by rw [← zpow_natCast, ← zpow_add₀ (by norm_num)]; norm_num

/-- A decimal with a negative exponent, in powers of two. -/
theorem decimal_lt (digits : Nat) {exponent : Int} (hneg : exponent < 0) :
    (digits : ℚ) * 10 ^ exponent < 2 ^ ((digits.log2 : Int) + 1 + 3 * exponent) := by
  have hlog : (digits : ℚ) < 2 ^ ((digits.log2 : Int) + 1) := by
    rw [← Nat.cast_succ, zpow_natCast]
    exact_mod_cast Nat.lt_log2_self
  have hten : (10 : ℚ) ^ exponent ≤ 2 ^ (3 * exponent) := by
    obtain ⟨k, rfl⟩ : ∃ k : Nat, exponent = -(k : Int) := ⟨(-exponent).toNat, by omega⟩
    rw [mul_neg, zpow_neg, zpow_neg, zpow_mul, zpow_natCast, zpow_natCast]
    exact inv_anti₀ (by positivity) (pow_le_pow_left₀ (by norm_num) (by norm_num) k)
  rw [zpow_add₀ (by norm_num)]
  exact mul_lt_mul hlog hten (by positivity) (by positivity)

/-- A decimal with a great exponent, in powers of two. -/
theorem lt_decimal {digits : Nat} (hdigits : digits ≠ 0) {exponent : Int} (hgt : exponent > 400) :
    (2 : ℚ) ^ (1024 : Int) < digits * 10 ^ exponent := by
  have hone : (1 : ℚ) ≤ digits := by exact_mod_cast Nat.pos_of_ne_zero hdigits
  have hpos : (0 : ℚ) < 10 ^ exponent := by positivity
  calc (2 : ℚ) ^ (1024 : Int) ≤ 2 ^ (3 * exponent) := zpow_le_zpow_right₀ (by norm_num) (by omega)
    _ = 8 ^ exponent := by rw [zpow_mul]; norm_num
    _ < 10 ^ exponent := by
      obtain ⟨k, rfl⟩ := Int.eq_ofNat_of_zero_le (show 0 ≤ exponent by omega)
      rw [zpow_natCast, zpow_natCast]
      exact pow_lt_pow_left₀ (by norm_num) (by norm_num) (by omega)
    _ ≤ digits * 10 ^ exponent := le_mul_of_one_le_left hpos.le hone

/-- **Each decimal near a number rounds to it.** -/
theorem ofDecimal_eq (negative : Bool) {digits : Nat} {exponent : Int} (hform : InForm m e) (hm : 0 < m)
    (hnear : Near m e (digits * (10 : ℚ) ^ exponent)) :
    ofDecimal negative digits exponent = .finite negative m e := by
  have hdigits : digits ≠ 0 := by
    rintro rfl
    have hq := hnear.pos hm
    rw [Nat.cast_zero, zero_mul] at hq
    exact lt_irrefl 0 hq
  -- neither of the quick answers is given to a decimal near a number
  have hsmall : ¬ (exponent < 0 ∧ (digits.log2 : Int) + 3 * exponent < -1200) := by
    rintro ⟨hneg, hlt⟩
    have hbound : (2 : ℚ) ^ ((digits.log2 : Int) + 1 + 3 * exponent) ≤ 2 ^ (-1075 : Int) :=
      zpow_le_zpow_right₀ (by norm_num) (by omega)
    exact absurd ((least_le_lowEnd hform hm).trans hnear.low)
      (not_le.mpr ((decimal_lt digits hneg).trans_le hbound))
  have hlarge : ¬ exponent > 400 := fun hgt =>
    absurd (hnear.high.trans (highEnd_le hform)) (not_le.mpr (lt_decimal hdigits hgt))
  rw [ofDecimal, if_neg hdigits]
  dsimp only
  rw [if_neg hsmall, if_neg hlarge]
  split
  · next hnonneg =>
    obtain ⟨k, rfl⟩ := Int.eq_ofNat_of_zero_le hnonneg
    refine ofRatio_eq negative Nat.one_pos hform hm ?_
    rw [zpow_natCast] at hnear
    push_cast
    rw [div_one]
    exact hnear
  · next hneg =>
    obtain ⟨k, rfl⟩ : ∃ k : Nat, exponent = -(k : Int) := ⟨(-exponent).toNat, by omega⟩
    refine ofRatio_eq negative (Nat.pow_pos (by decide)) hform hm ?_
    rw [zpow_neg, zpow_natCast] at hnear
    rw [neg_neg, Int.toNat_natCast]
    push_cast
    rw [div_eq_mul_inv]
    exact hnear

end SlotEdit.Binary64
