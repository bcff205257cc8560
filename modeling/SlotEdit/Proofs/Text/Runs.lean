import SlotEdit.Text.CharClass

/-!
# Proofs/Text/Runs — runs of characters of a class

How far a run of characters of a class goes when more text follows, and which classes have no
character in common.
-/

namespace SlotEdit

theorem takeWhile_append_of_stop {p : Char → Bool} (s : List Char) {r : List Char}
    (hr : ∀ c ∈ r.head?, p c = false) : (s ++ r).takeWhile p = s.takeWhile p := by
  induction s with
  | nil =>
    cases r with
    | nil => rfl
    | cons c r => simp [List.takeWhile_cons_of_neg, hr c rfl]
  | cons c s ih =>
    rw [List.cons_append, List.takeWhile_cons, List.takeWhile_cons, ih]

/-- **A run ends where what follows is not of the class.** -/
theorem takeWhile_run {p : Char → Bool} {s r : List Char} (hs : ∀ c ∈ s, p c = true)
    (hr : ∀ c ∈ r.head?, p c = false) : (s ++ r).takeWhile p = s := by
  have hnone : r.takeWhile p = [] := by
    cases r with
    | nil => rfl
    | cons c r => exact List.takeWhile_cons_of_neg (Bool.eq_false_iff.mp (hr c rfl))
  rw [List.takeWhile_append_of_pos hs, hnone, List.append_nil]

/-- What is left behind a run is what follows it. -/
theorem dropWhile_run {p : Char → Bool} {s r : List Char} (hs : ∀ c ∈ s, p c = true)
    (hr : ∀ c ∈ r.head?, p c = false) : (s ++ r).dropWhile p = r := by
  rw [List.dropWhile_append_of_pos hs]
  cases r with
  | nil => rfl
  | cons c r => exact List.dropWhile_cons_of_neg (Bool.eq_false_iff.mp (hr c rfl))

/-! ## Classes apart -/

/-- The code of a digit lies less than ten behind that of some script's zero. -/
theorem exists_zero_of_isDecimalDigit {c : Char} (h : isDecimalDigit c = true) :
    ∃ z ∈ Tables.digitZeros, ∃ d < 10, c = Char.ofNat (z + d) := by
  have hcode {z : Nat} (hle : z ≤ c.toNat) (hlt : c.toNat < z + 10) : ∃ d < 10, c = Char.ofNat (z + d) := by
    refine ⟨c.toNat - z, by omega, ?_⟩
    rw [Nat.add_sub_cancel' hle, Char.ofNat_toNat]
  rw [isDecimalDigit, digitValue?] at h
  split at h
  · split at h
    · next hdigit =>
      obtain ⟨hle, hlt⟩ : '0' ≤ c ∧ c ≤ '9' := of_decide_eq_true hdigit
      exact ⟨48, by decide, hcode hle (Nat.lt_succ_of_le hlt)⟩
    · cases h
  · rw [Option.isSome_map, List.find?_isSome] at h
    obtain ⟨z, hz, hrun⟩ := h
    obtain ⟨hle, hlt⟩ := of_decide_eq_true hrun
    exact ⟨z, hz, hcode hle hlt⟩

/-- What no digit of any script is. -/
theorem not_of_isDecimalDigit {p : Char → Bool}
    (h : ∀ z ∈ Tables.digitZeros, ∀ d < 10, p (Char.ofNat (z + d)) = false) {c : Char}
    (hc : isDecimalDigit c = true) : p c = false := by
  obtain ⟨z, hz, d, hd, rfl⟩ := exists_zero_of_isDecimalDigit hc
  exact h z hz d hd

theorem isBlank_eq_false_of_isDecimalDigit {c : Char} (h : isDecimalDigit c = true) : isBlank c = false :=
  not_of_isDecimalDigit (by decide +kernel) h

end SlotEdit
