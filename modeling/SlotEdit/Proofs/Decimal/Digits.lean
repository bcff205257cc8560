import Mathlib.Data.Nat.Digits.Lemmas
import Mathlib.Logic.Basic
import SlotEdit.Decimal.Reading
import SlotEdit.Proofs.Text.Runs

/-!
# Proofs/Decimal/Digits — digits are read back as they were written

A natural number is written with ASCII digits and no zero in front (`head?_natText`), and these are
read back to it (`digitsValue_natText`).  Digits one after another count by their places
(`digitsValue_append`).
-/

namespace SlotEdit

/-! ## Written digits -/

theorem isAsciiDigit_of_isDigit {c : Char} (h : c.isDigit = true) : isAsciiDigit c = true := by
  simp only [Char.isDigit, Bool.and_eq_true, decide_eq_true_eq] at h
  exact decide_eq_true h

theorem isAsciiDigit_natText {n : Nat} {c : Char} (h : c ∈ natText n) : isAsciiDigit c = true :=
  isAsciiDigit_of_isDigit (Nat.isDigit_of_mem_toDigits (by decide) (by decide) h)

theorem digitValue?_of_isAsciiDigit {c : Char} (h : isAsciiDigit c = true) :
    digitValue? c = some (c.toNat - 48) := by
  have hle : c.toNat ≤ 57 := (of_decide_eq_true h).2
  rw [digitValue?, if_pos (by omega), if_pos h]

theorem digitsValue_eq {s : List Char} (h : ∀ c ∈ s, isAsciiDigit c = true) :
    digitsValue s = Nat.ofDigitChars 10 s 0 := by
  rw [digitsValue, Nat.ofDigitChars_eq_foldl]
  generalize 0 = n
  induction s generalizing n with
  | nil => rfl
  | cons c s ih =>
    rw [List.forall_mem_cons] at h
    rw [List.foldl_cons, List.foldl_cons, digitValue?_of_isAsciiDigit h.1]
    exact ih h.2 _

theorem digitsValue_natText (n : Nat) : digitsValue (natText n) = n := by
  rw [digitsValue_eq fun c hc => isAsciiDigit_natText hc]
  exact Nat.ofDigitChars_toDigits (by decide) (by decide)

/-- No number but zero is written with a zero in front. -/
theorem head?_natText {n : Nat} (h : n ≠ 0) : (natText n).head? ≠ some '0' := by
  induction n using Nat.base_induction 10 (by decide) with
  | single m hm =>
    rw [natText, Nat.toDigits_of_lt_base hm]
    have hdigit : ∀ d < 10, d ≠ 0 → d.digitChar ≠ '0' := by decide
    exact fun heq => hdigit m hm h (Option.some.inj heq)
  | digit m k hk hm ih =>
    rw [natText, ← Nat.toDigits_append_toDigits (by decide) hm hk,
      List.head?_append, Option.or_of_isSome (List.isSome_head?.mpr Nat.toDigits_ne_nil)]
    exact ih (by omega)

theorem exists_natText (n : Nat) : ∃ c s, natText n = c :: s ∧ isAsciiDigit c = true := by
  cases h : natText n with
  | nil => exact absurd h Nat.toDigits_ne_nil
  | cons c s => exact ⟨c, s, rfl, isAsciiDigit_natText (n := n) (h ▸ List.mem_cons_self)⟩

theorem length_natText_le {n : Nat} (h : n < 10 ^ digitLimit) : (natText n).length ≤ digitLimit :=
  (Nat.length_toDigits_le_iff (by decide) (by decide)).mpr h

theorem isDecimalDigit_of_isAsciiDigit {c : Char} (h : isAsciiDigit c = true) : isDecimalDigit c = true := by
  rw [isDecimalDigit, digitValue?_of_isAsciiDigit h]
  rfl

/-! ## Around digits -/

theorem trimBlanks_eq {s : List Char} (hs : ∀ c ∈ s, isBlank c = false) : trimBlanks s = s := by
  have hdrop {s : List Char} (hs : ∀ c ∈ s, isBlank c = false) : s.dropWhile isBlank = s := by
    cases s with
    | nil => rfl
    | cons c s => exact List.dropWhile_cons_of_neg (Bool.eq_false_iff.mp (hs c List.mem_cons_self))
  rw [trimBlanks, hdrop hs, hdrop fun c hc => hs c (List.mem_reverse.mp hc), List.reverse_reverse]

theorem dropUnderscores?_eq {s : List Char} (hs : ∀ c ∈ s, c ≠ '_') (isDigit : Char → Bool) (afterDigit : Bool) :
    dropUnderscores? isDigit afterDigit s = some s := by
  induction s generalizing afterDigit with
  | nil => rfl
  | cons c s ih =>
    rw [List.forall_mem_cons] at hs
    rw [dropUnderscores?, ih hs.2]
    · rfl
    · exact hs.1

theorem splitSign_eq {s : List Char} (h : ∀ c ∈ s.head?, c ≠ '-' ∧ c ≠ '+') : splitSign s = (false, s) := by
  cases s with
  | nil => rfl
  | cons c s =>
    obtain ⟨hminus, hplus⟩ := h c rfl
    rw [splitSign]
    · exact fun rest heq => hminus (List.cons.inj heq).1
    · exact fun rest heq => hplus (List.cons.inj heq).1

theorem splitSign_natText (n : Nat) : splitSign (natText n) = (false, natText n) := by
  refine splitSign_eq fun c hc => ?_
  have hdigit := isAsciiDigit_natText (List.mem_of_mem_head? hc)
  exact ⟨fun h => absurd hdigit (h ▸ by decide), fun h => absurd hdigit (h ▸ by decide)⟩

/-- **Digits are an integer**, unless there are too many of them. -/
theorem readInt_ofList {s : List Char} (hs : ∀ c ∈ s, isAsciiDigit c = true) (hne : s ≠ []) :
    readInt (String.ofList s) = integerOfDigits false s := by
  have hdecimal {c : Char} (hc : c ∈ s) : isDecimalDigit c = true := isDecimalDigit_of_isAsciiDigit (hs c hc)
  have hsign : splitSign s = (false, s) := by
    refine splitSign_eq fun c hc => ?_
    have hdigit := hs c (List.mem_of_mem_head? hc)
    exact ⟨fun h => absurd hdigit (h ▸ by decide), fun h => absurd hdigit (h ▸ by decide)⟩
  rw [readInt, String.toList_ofList, trimBlanks_eq fun c hc => isBlank_eq_false_of_isDecimalDigit (hdecimal hc), hsign]
  dsimp only
  rw [dropUnderscores?_eq fun c hc h => absurd (hs c hc) (h ▸ by decide)]
  dsimp only
  rw [if_neg]
  rw [Bool.or_eq_true, not_or, List.isEmpty_iff, Bool.not_eq_true', Bool.not_eq_false]
  exact ⟨hne, List.all_eq_true.mpr fun c hc => hdecimal hc⟩

theorem mem_trimBlanks {s : List Char} {c : Char} (hc : c ∈ s) : isBlank c = true ∨ c ∈ trimBlanks s := by
  have hdrop {s : List Char} (hc : c ∈ s) : isBlank c = true ∨ c ∈ s.dropWhile isBlank := by
    rw [← List.takeWhile_append_dropWhile (p := isBlank) (l := s), List.mem_append] at hc
    exact hc.imp_left fun hc => List.all_eq_true.mp List.all_takeWhile c hc
  rw [trimBlanks, List.mem_reverse]
  exact (hdrop hc).elim .inl fun hc => hdrop (List.mem_reverse.mpr hc)

theorem mem_splitSign {s : List Char} {c : Char} (hc : c ∈ s) : c = '-' ∨ c = '+' ∨ c ∈ (splitSign s).2 := by
  unfold splitSign
  split
  · exact (List.mem_cons.mp hc).imp_right .inr
  · exact .inr (List.mem_cons.mp hc)
  · exact .inr (.inr hc)

theorem mem_of_dropUnderscores? {isDigit : Char → Bool} {afterDigit : Bool} {s digits : List Char}
    (h : dropUnderscores? isDigit afterDigit s = some digits) : ∀ c ∈ s, c = '_' ∨ c ∈ digits := by
  fun_induction dropUnderscores? isDigit afterDigit s generalizing digits with
  | case1 => exact fun c hc => nomatch hc
  | case2 afterDigit rest _ ih => exact List.forall_mem_cons.mpr ⟨.inl rfl, ih h⟩
  | case3 => exact nomatch h
  | case4 afterDigit d rest _ ih =>
    obtain ⟨ds, hds, rfl⟩ := Option.map_eq_some_iff.mp h
    exact List.forall_mem_cons.mpr ⟨.inr List.mem_cons_self, fun c hc => (ih hds c hc).imp_right (List.mem_cons_of_mem _)⟩

/-- **The characters of an integer**: digits, and around them blanks, a sign and underscores. -/
theorem mem_of_readInt {text : String} {n : Int} (h : readInt text = .ok n) {c : Char} (hc : c ∈ text.toList) :
    isBlank c = true ∨ c = '-' ∨ c = '+' ∨ c = '_' ∨ isDecimalDigit c = true := by
  rcases mem_trimBlanks hc with hc | hc
  · exact .inl hc
  refine .inr ((mem_splitSign hc).imp_right fun hc => hc.imp_right fun hc => ?_)
  unfold readInt at h
  split at h
  next hsign =>
  rw [hsign] at hc
  split at h
  · next digits hdigits =>
    refine (mem_of_dropUnderscores? hdigits c hc).imp_right fun hc => ?_
    split at h
    · exact nomatch h
    · next hall =>
      rw [Bool.or_eq_true, not_or, Bool.not_eq_true', Bool.not_eq_false] at hall
      exact List.all_eq_true.mp hall.2 c hc
  · exact nomatch h

/-! ## Places -/

/-- **Digits behind digits** move those in front of them to the left. -/
theorem digitsValue_append {s t : List Char} (hs : ∀ c ∈ s, isAsciiDigit c = true)
    (ht : ∀ c ∈ t, isAsciiDigit c = true) : digitsValue (s ++ t) = digitsValue s * 10 ^ t.length + digitsValue t := by
  rw [digitsValue_eq (List.forall_mem_append.mpr ⟨hs, ht⟩), digitsValue_eq hs, digitsValue_eq ht,
    Nat.ofDigitChars_append, Nat.ofDigitChars_eq_ofDigitChars_zero, Nat.mul_comm]

theorem isAsciiDigit_of_mem_replicate {k : Nat} {c : Char} (h : c ∈ List.replicate k '0') : isAsciiDigit c = true :=
  List.eq_of_mem_replicate h ▸ rfl

theorem digitsValue_replicate (k : Nat) : digitsValue (List.replicate k '0') = 0 := by
  induction k with
  | zero => rfl
  | succ k ih =>
    rw [List.replicate_succ, ← List.singleton_append, digitsValue_append (List.forall_mem_singleton.mpr rfl)
      fun c hc => isAsciiDigit_of_mem_replicate hc, ih, show digitsValue ['0'] = 0 from rfl, Nat.zero_mul]

/-- Zeros in front change nothing. -/
theorem digitsValue_zeros_append (k : Nat) {s : List Char} (hs : ∀ c ∈ s, isAsciiDigit c = true) :
    digitsValue (List.replicate k '0' ++ s) = digitsValue s := by
  rw [digitsValue_append (fun c hc => isAsciiDigit_of_mem_replicate hc) hs, digitsValue_replicate, Nat.zero_mul,
    Nat.zero_add]

/-- Zeros behind are powers of ten. -/
theorem digitsValue_append_zeros (k : Nat) {s : List Char} (hs : ∀ c ∈ s, isAsciiDigit c = true) :
    digitsValue (s ++ List.replicate k '0') = digitsValue s * 10 ^ k := by
  rw [digitsValue_append hs fun c hc => isAsciiDigit_of_mem_replicate hc, digitsValue_replicate, List.length_replicate,
    Nat.add_zero]

end SlotEdit
