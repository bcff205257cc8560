import SlotEdit.Proofs.Decimal.Rounding

/-!
# Proofs/Decimal/Shortest — the shortest decimal rounds back

Seventeen digits always suffice: the unit of the last of them is smaller than the interval of
decimals that round to the number (`holds_seventeen`).  So the search for the shortest ends with a
decimal in that interval (`near_shortest`).
-/

namespace SlotEdit

open Binary64

/-- The value of a decimal number. -/
def Scientific.value (s : Scientific) : ℚ := s.digits * (10 : ℚ) ^ (s.exponent + 1 - digitCount s.digits)

namespace Binary64

/-! ## Decimal logarithms -/

theorem digitCount_le_iff {n k : Nat} (hk : 0 < k) : digitCount n ≤ k ↔ n < 10 ^ k :=
  Nat.length_toDigits_le_iff (by decide) hk

theorem digitCount_pos (n : Nat) : 0 < digitCount n := List.length_pos_iff.mpr Nat.toDigits_ne_nil

theorem lt_pow_digitCount (n : Nat) : n < 10 ^ digitCount n := (digitCount_le_iff (digitCount_pos n)).mp (le_refl _)

theorem pow_le_of_digitCount {n : Nat} (hn : 0 < n) : 10 ^ (digitCount n - 1) ≤ n := by
  rcases Nat.eq_zero_or_pos (digitCount n - 1) with h | h
  · rw [h]
    exact hn
  · by_contra hlt
    have := (digitCount_le_iff h).mpr (not_le.mp hlt)
    omega

/-- How many digits a number has is known by the powers of ten around it. -/
theorem digitCount_eq {n k : Nat} (hlow : 10 ^ k ≤ n) (hhigh : n < 10 ^ (k + 1)) : digitCount n = k + 1 := by
  refine le_antisymm ((digitCount_le_iff k.succ_pos).mpr hhigh) ?_
  by_contra hlt
  have hk : 0 < k := by
    have := digitCount_pos n
    omega
  exact absurd ((digitCount_le_iff hk).mp (by omega)) (not_lt.mpr hlow)

/-- **The decimal logarithm** is rounded down. -/
theorem floorLog10_spec {num den : Nat} (hnum : 0 < num) (hden : 0 < den) :
    (10 : ℚ) ^ floorLog10 num den ≤ num / den ∧ (num : ℚ) / den < (10 : ℚ) ^ (floorLog10 num den + 1) := by
  have hd : (0 : ℚ) < den := Nat.cast_pos.mpr hden
  have hn : (0 : ℚ) < num := Nat.cast_pos.mpr hnum
  rw [floorLog10]
  split
  · next hle =>
    have hpos : 0 < num / den := Nat.div_pos hle hden
    obtain ⟨c, hc⟩ : ∃ c, digitCount (num / den) = c + 1 := ⟨_, (Nat.succ_pred_eq_of_pos (digitCount_pos _)).symm⟩
    have hlow := pow_le_of_digitCount hpos
    have hhigh := lt_pow_digitCount (num / den)
    rw [hc, Nat.add_sub_cancel] at hlow
    rw [hc] at hhigh
    rw [hc, Nat.cast_succ, add_sub_cancel_right, ← Nat.cast_succ, zpow_natCast, zpow_natCast, le_div_iff₀ hd,
      div_lt_iff₀ hd]
    constructor
    · exact_mod_cast (Nat.le_div_iff_mul_le hden).mp hlow
    · exact_mod_cast (Nat.div_lt_iff_lt_mul hden).mp hhigh
  · next hlt =>
    -- `k` is the quotient the other way round, rounded up, less one
    have hbelow : ((den + num - 1) / num - 1) * num < den := by
      have := Nat.div_mul_le_self (den + num - 1) num
      rw [Nat.sub_mul]
      omega
    have habove : den ≤ ((den + num - 1) / num - 1 + 1) * num := by
      have hlt' := Nat.lt_div_mul_add (a := den + num - 1) hnum
      have hone : 1 ≤ (den + num - 1) / num := (Nat.le_div_iff_mul_le hnum).mpr (by omega)
      rw [Nat.sub_add_cancel hone]
      omega
    have hpos : 0 < (den + num - 1) / num - 1 := by
      have : 2 ≤ (den + num - 1) / num := (Nat.le_div_iff_mul_le hnum).mpr (by omega)
      omega
    generalize (den + num - 1) / num - 1 = k at hbelow habove hpos ⊢
    obtain ⟨c, hc⟩ : ∃ c, digitCount k = c + 1 := ⟨_, (Nat.succ_pred_eq_of_pos (digitCount_pos _)).symm⟩
    have hlow := pow_le_of_digitCount hpos
    have hhigh := lt_pow_digitCount k
    rw [hc, Nat.add_sub_cancel] at hlow
    rw [hc] at hhigh
    have hle : den ≤ 10 ^ (c + 1) * num := habove.trans (Nat.mul_le_mul_right num hhigh)
    have hlt : 10 ^ c * num < den := (Nat.mul_le_mul_right num hlow).trans_lt hbelow
    have hexp : -((c + 1 : Nat) : Int) + 1 = -(c : Int) := by push_cast; ring
    rw [hc, hexp, zpow_neg, zpow_neg, zpow_natCast, zpow_natCast, le_div_iff₀ hd, div_lt_iff₀ hd,
      inv_mul_le_iff₀ (by positivity), lt_inv_mul_iff₀ (by positivity)]
    constructor
    · exact_mod_cast hle
    · exact_mod_cast hlt

/-! ## The interval of a number, in whole numbers -/

section Interval

variable {m : Nat} {e : Int} {c : Nat} {shift : Int}

theorem rounding_den_pos (m : Nat) (e : Int) : 0 < (rounding m e).den := by
  rw [rounding]
  dsimp only
  split
  · decide
  · exact Nat.mul_pos (by decide) (Nat.pow_pos (by decide))

/-- A numerator of the interval, over its denominator. -/
theorem scale_div (n : Nat) (e : Int) :
    ((if 0 ≤ e then n * 2 ^ e.toNat else n : Nat) : ℚ) / (if 0 ≤ e then 4 else 4 * 2 ^ (-e).toNat : Nat) =
      n / 4 * 2 ^ e := by
  split
  · next he =>
    obtain ⟨k, rfl⟩ := Int.eq_ofNat_of_zero_le he
    rw [Int.toNat_natCast, zpow_natCast]
    push_cast
    ring
  · next he =>
    obtain ⟨k, rfl⟩ : ∃ k : Nat, e = -(k : Int) := ⟨(-e).toNat, by omega⟩
    rw [neg_neg, Int.toNat_natCast, zpow_neg, zpow_natCast]
    push_cast
    field_simp

theorem rounding_value (m : Nat) (e : Int) : ((rounding m e).value : ℚ) / (rounding m e).den = m * 2 ^ e := by
  rw [rounding]
  dsimp only
  rw [scale_div]
  push_cast
  ring

theorem rounding_low (hm : 0 < m) (e : Int) : ((rounding m e).low : ℚ) / (rounding m e).den = lowEnd m e := by
  rw [rounding]
  dsimp only
  rw [scale_div, lowEnd]
  split
  · rw [Nat.cast_sub (by omega)]
    push_cast
    ring
  · rw [Nat.cast_sub (by omega)]
    push_cast
    ring

theorem rounding_high (m : Nat) (e : Int) : ((rounding m e).high : ℚ) / (rounding m e).den = highEnd m e := by
  rw [rounding]
  dsimp only
  rw [scale_div, highEnd]
  push_cast
  ring

/-- Comparing whole numbers is comparing quotients. -/
theorem cross_le_iff {a b n d : Nat} (hb : 0 < b) (hd : 0 < d) : a * d ≤ n * b ↔ (a : ℚ) / b ≤ n / d := by
  rw [div_le_div_iff₀ (Nat.cast_pos.mpr hb) (Nat.cast_pos.mpr hd)]
  exact_mod_cast Iff.rfl

theorem cross_lt_iff {a b n d : Nat} (hb : 0 < b) (hd : 0 < d) : a * d < n * b ↔ (a : ℚ) / b < n / d := by
  rw [div_lt_div_iff₀ (Nat.cast_pos.mpr hb) (Nat.cast_pos.mpr hd)]
  exact_mod_cast Iff.rfl

/-- **What it is for a decimal to lie in the interval of a number.** -/
theorem holds_iff (hm : 0 < m) : (rounding m e).holds c shift = true ↔
    if m % 2 = 0 then lowEnd m e ≤ c * 10 ^ shift ∧ (c : ℚ) * 10 ^ shift ≤ highEnd m e
    else lowEnd m e < c * 10 ^ shift ∧ (c : ℚ) * 10 ^ shift < highEnd m e := by
  obtain ⟨hd, hscale⟩ := scaleByPow_spec (show 0 < 10 by decide) c Nat.one_pos (-shift)
  have hden := rounding_den_pos m e
  rw [Nat.cast_one, div_one, Nat.cast_ofNat, zpow_neg, div_inv_eq_mul] at hscale
  have hclosed : (rounding m e).closed = decide (m % 2 = 0) := rfl
  rw [← hscale, ← rounding_low hm, ← rounding_high, ← cross_le_iff hden hd, ← cross_le_iff hd hden,
    ← cross_lt_iff hden hd, ← cross_lt_iff hd hden, Rounding.holds]
  dsimp only
  rw [hclosed]
  by_cases heven : m % 2 = 0
  · simp only [heven, decide_true, if_true, decide_eq_true_eq, mul_comm]
  · simp only [heven, decide_false, if_false, decide_eq_true_eq, mul_comm, Bool.false_eq_true]

/-- **A decimal that lies in the interval of a number** is near it. -/
theorem near_of_holds (hm : 0 < m) (h : (rounding m e).holds c shift = true) : Near m e (c * 10 ^ shift) := by
  rw [holds_iff hm] at h
  split at h
  · next heven => exact ⟨h.1, h.2, fun _ => heven⟩
  · exact ⟨h.1.le, h.2.le, fun heq => heq.elim (fun heq => absurd heq h.1.ne') fun heq => absurd heq h.2.ne⟩

theorem holds_of_between (hm : 0 < m) (hlow : lowEnd m e < c * 10 ^ shift)
    (hhigh : (c : ℚ) * 10 ^ shift < highEnd m e) : (rounding m e).holds c shift = true := by
  rw [holds_iff hm]
  split
  · exact ⟨hlow.le, hhigh.le⟩
  · exact ⟨hlow, hhigh⟩

/-! ## The neighbours with some digits -/

/-- The number right below a positive one, in units of a power of ten. -/
def belowIn (m : Nat) (e shift : Int) : Nat :=
  (scaleByPow 10 (rounding m e).value (rounding m e).den shift).1 /
    (scaleByPow 10 (rounding m e).value (rounding m e).den shift).2

theorem belowIn_spec (m : Nat) (e shift : Int) : (belowIn m e shift : ℚ) * 10 ^ shift ≤ m * 2 ^ e ∧
    (m : ℚ) * 2 ^ e < (belowIn m e shift + 1) * 10 ^ shift := by
  obtain ⟨hd, hscale⟩ := scaleByPow_spec (show 0 < 10 by decide) (rounding m e).value (rounding_den_pos m e) shift
  rw [rounding_value, Nat.cast_ofNat] at hscale
  rw [belowIn]
  generalize scaleByPow 10 (rounding m e).value (rounding m e).den shift = pair at hd hscale ⊢
  obtain ⟨n, d⟩ := pair
  have hd' : (0 : ℚ) < d := Nat.cast_pos.mpr hd
  have hunit : (0 : ℚ) < 10 ^ shift := by positivity
  have hvalue : (m : ℚ) * 2 ^ e = n / d * 10 ^ shift := by
    rw [hscale, div_mul_cancel₀ _ hunit.ne']
  rw [hvalue, mul_le_mul_iff_left₀ hunit, mul_lt_mul_iff_left₀ hunit, le_div_iff₀ hd', div_lt_iff₀ hd']
  constructor
  · exact_mod_cast Nat.div_mul_le_self n d
  · have := Nat.lt_div_mul_add (a := n) hd
    rw [← Nat.succ_mul] at this
    exact_mod_cast this

/-- **What is found with some digits** lies in the interval, right below or right above the number. -/
theorem exists_of_neighbour? {log10 : Int} {count : Nat} {s : Scientific}
    (h : neighbour? (rounding m e) log10 count = some s) : ∃ c, (c = belowIn m e (log10 - count + 1) ∨
      c = belowIn m e (log10 - count + 1) + 1) ∧ (rounding m e).holds c (log10 - count + 1) = true ∧
      s = if c = 10 ^ count then ⟨1, log10 + 1⟩ else ⟨c, log10⟩ := by
  rw [neighbour?] at h
  rw [belowIn]
  generalize scaleByPow 10 (rounding m e).value (rounding m e).den (log10 - count + 1) = pair at h ⊢
  obtain ⟨n, d⟩ := pair
  obtain ⟨c, hc, rfl⟩ := Option.map_eq_some_iff.mp h
  refine ⟨c, ?_⟩
  dsimp only at hc ⊢
  split at hc
  · cases hc
  · next hdown _ => exact ⟨.inl (Option.some.inj hc).symm, Option.some.inj hc ▸ hdown, rfl⟩
  · next _ hup => exact ⟨.inr (Option.some.inj hc).symm, Option.some.inj hc ▸ hup, rfl⟩
  · next hdown hup =>
    -- of both, one is taken
    have hone : c = n / d ∨ c = n / d + 1 := by
      have := Option.some.inj hc
      split at this
      · exact .inl this.symm
      · split at this
        · exact .inr this.symm
        · omega
    refine ⟨hone, ?_, rfl⟩
    rcases hone with rfl | rfl
    · exact hdown
    · exact hup

/-- Something is found with some digits when one of the neighbours lies in the interval. -/
theorem isSome_neighbour? {log10 : Int} {count c : Nat}
    (hc : c = belowIn m e (log10 - count + 1) ∨ c = belowIn m e (log10 - count + 1) + 1)
    (h : (rounding m e).holds c (log10 - count + 1) = true) :
    (neighbour? (rounding m e) log10 count).isSome = true := by
  rw [belowIn] at hc
  rw [neighbour?, Option.isSome_map]
  generalize scaleByPow 10 (rounding m e).value (rounding m e).den (log10 - count + 1) = pair at hc ⊢
  obtain ⟨n, d⟩ := pair
  dsimp only at hc ⊢
  split
  · next hdown hup =>
    rcases hc with rfl | rfl
    · rw [hdown] at h
      cases h
    · rw [hup] at h
      cases h
  · rfl
  · rfl
  · rfl

/-! ## Seventeen digits suffice -/

/-- **One of the neighbours with seventeen digits lies in the interval**: their distance is less than
the interval is wide, on the narrower side too. -/
theorem holds_seventeen (hform : InForm m e) (hm : 0 < m) {log10 : Int} (hlog : (10 : ℚ) ^ log10 ≤ m * 2 ^ e) :
    ∃ c, (c = belowIn m e (log10 - 16) ∨ c = belowIn m e (log10 - 16) + 1) ∧
      (rounding m e).holds c (log10 - 16) = true := by
  obtain ⟨hbelow, habove⟩ := belowIn_spec m e (log10 - 16)
  have hunit : (0 : ℚ) < 2 ^ e := by positivity
  have htenth : (10 : ℚ) ^ (log10 - 16) * 10 ^ 16 ≤ m * 2 ^ e := by
    rw [← zpow_natCast, ← zpow_add₀ (by norm_num)]
    exact (zpow_le_zpow_right₀ (by norm_num) (by push_cast; omega)).trans hlog
  have hm' : (m : ℚ) + 1 ≤ 2 ^ 53 := by exact_mod_cast hform.lt
  have hlow : lowEnd m e < m * 2 ^ e - 10 ^ (log10 - 16) / 2 := by
    rw [lowEnd]
    split
    · next hquarter =>
      have hm'' : (m : ℚ) = 2 ^ 52 := by exact_mod_cast hquarter.1
      rw [hm''] at htenth ⊢
      nlinarith
    · nlinarith
  have hhigh : (m : ℚ) * 2 ^ e + 10 ^ (log10 - 16) / 2 < highEnd m e := by
    rw [highEnd]
    nlinarith
  have hpos : (0 : ℚ) < 10 ^ (log10 - 16) := by positivity
  rcases le_or_gt ((m : ℚ) * 2 ^ e - belowIn m e (log10 - 16) * 10 ^ (log10 - 16)) (10 ^ (log10 - 16) / 2) with h | h
  · exact ⟨_, .inl rfl, holds_of_between hm (by linarith) (by linarith)⟩
  · refine ⟨_, .inr rfl, holds_of_between hm ?_ ?_⟩
    · push_cast
      linarith
    · push_cast
      linarith

/-- How a decimal that is found with some digits is written. -/
theorem value_of_neighbour? {log10 : Int} (hlog : (10 : ℚ) ^ log10 ≤ m * 2 ^ e)
    (hlog' : (m : ℚ) * 2 ^ e < 10 ^ (log10 + 1)) {k : Nat} {s : Scientific}
    (h : neighbour? (rounding m e) log10 (k + 1) = some s) :
    s.digits ≠ 0 ∧ ∃ c, (rounding m e).holds c (log10 - k) = true ∧ s.value = c * 10 ^ (log10 - k) := by
  obtain ⟨c, hc, hholds, hs⟩ := exists_of_neighbour? h
  have hshift : log10 - (k + 1 : Nat) + 1 = log10 - k := by push_cast; ring
  rw [hshift] at hc hholds
  obtain ⟨hbelow, habove⟩ := belowIn_spec m e (log10 - k)
  have hunit : (0 : ℚ) < 10 ^ (log10 - k) := by positivity
  have ten : (10 : ℚ) ≠ 0 := by norm_num
  have hlow : 10 ^ k ≤ belowIn m e (log10 - k) := by
    have hpow : (10 : ℚ) ^ k * 10 ^ (log10 - k) = 10 ^ log10 := by
      rw [← zpow_natCast, ← zpow_add₀ ten]
      congr 1
      ring
    have hlt := hpow ▸ hlog.trans_lt habove
    rw [mul_lt_mul_iff_left₀ hunit] at hlt
    exact Nat.lt_succ_iff.mp (by exact_mod_cast hlt)
  have hhigh : belowIn m e (log10 - k) < 10 ^ (k + 1) := by
    have hpow : (10 : ℚ) ^ (k + 1) * 10 ^ (log10 - k) = 10 ^ (log10 + 1) := by
      rw [← zpow_natCast, ← zpow_add₀ ten]
      congr 1
      push_cast
      ring
    have hlt := hpow ▸ hbelow.trans_lt hlog'
    rw [mul_lt_mul_iff_left₀ hunit] at hlt
    exact_mod_cast hlt
  have hpos : 0 < 10 ^ k := Nat.pow_pos (by decide)
  split at hs
  · next hcarry =>
    subst hs
    refine ⟨Nat.one_ne_zero, c, hholds, ?_⟩
    have hone : digitCount 1 = 1 := rfl
    rw [Scientific.value, hone, hcarry, Nat.cast_one, one_mul, Nat.cast_one, add_sub_cancel_right]
    push_cast
    rw [← zpow_natCast, ← zpow_add₀ ten]
    congr 1
    push_cast
    ring
  · next hcarry =>
    subst hs
    have hcount : digitCount c = k + 1 := digitCount_eq (by omega) (by omega)
    refine ⟨by dsimp only; omega, c, hholds, ?_⟩
    rw [Scientific.value, hcount]
    congr 2
    push_cast
    ring

/-- **The shortest decimal** is near the number. -/
theorem near_shortest (hform : InForm m e) (hm : 0 < m) :
    (shortest m e).digits ≠ 0 ∧ Near m e (shortest m e).value := by
  have hvalue : 0 < (rounding m e).value := by
    rw [rounding]
    dsimp only
    split
    · exact Nat.mul_pos (Nat.mul_pos (by decide) hm) (Nat.pow_pos (by decide))
    · exact Nat.mul_pos (by decide) hm
  obtain ⟨hlog, hlog'⟩ := floorLog10_spec hvalue (rounding_den_pos m e)
  rw [rounding_value] at hlog hlog'
  have hsome : ((List.range 17).findSome? fun k =>
      neighbour? (rounding m e) (floorLog10 (rounding m e).value (rounding m e).den) (k + 1)).isSome = true := by
    obtain ⟨c, hc, hholds⟩ := holds_seventeen hform hm hlog
    have hshift (l : Int) : l - (16 + 1 : Nat) + 1 = l - 16 := by
      push_cast
      ring
    rw [List.findSome?_isSome_iff]
    refine ⟨16, by decide, isSome_neighbour? (c := c) ?_ ?_⟩
    · rw [hshift]
      exact hc
    · rw [hshift]
      exact hholds
  obtain ⟨s, hs⟩ := Option.isSome_iff_exists.mp hsome
  rw [shortest, hs, Option.getD_some]
  obtain ⟨k, -, hk⟩ := List.exists_of_findSome?_eq_some hs
  obtain ⟨hne, c, hholds, heq⟩ := value_of_neighbour? hlog hlog' hk
  exact ⟨hne, heq ▸ near_of_holds hm hholds⟩

end Interval

end Binary64

end SlotEdit
