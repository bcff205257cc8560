import Mathlib.Logic.Basic
import SlotEdit.Math.Tree
import SlotEdit.Proofs.Decimal.Digits
import SlotEdit.Proofs.Results
import SlotEdit.Proofs.Text.Runs

/-!
# Proofs/Math/Lexemes — the texts of numbers

`Number` says what a number is written as: a significand, digits with a point among or around them,
and perhaps an exponent.  The rule for numbers takes a number wherever it takes anything, and all of
it when nothing that goes on with one follows.  Each number has a value, but whole ones have one
only up to a number of digits (`exists_numberValue`).
-/

namespace SlotEdit.Math

/-- Digits of any script. -/
def Digits (s : List Char) : Prop := ∀ c ∈ s, isDecimalDigit c = true

/-- **Digits, perhaps with a point** among or around them. -/
inductive Significand : List Char → Prop
  | whole {d : List Char} : d ≠ [] → Digits d → Significand d
  | pointed {d f : List Char} : Digits d → Digits f → d ≠ [] ∨ f ≠ [] → Significand (d ++ '.' :: f)

/-- **A letter, perhaps a sign, and digits.** -/
inductive Exponent : List Char → Prop
  | mk {letter : Char} {sign d : List Char} : letter = 'e' ∨ letter = 'E' → sign = [] ∨ sign = ['+'] ∨ sign = ['-'] →
      d ≠ [] → Digits d → Exponent (letter :: (sign ++ d))

/-- **A significand, perhaps with an exponent.** -/
inductive Number : List Char → Prop
  | plain {m : List Char} : Significand m → Number m
  | scaled {m e : List Char} : Significand m → Exponent e → Number (m ++ e)

/-! ## What the rule takes -/

theorem digits_takeWhile (s : List Char) : Digits (s.takeWhile isDecimalDigit) :=
  List.all_eq_true.mp List.all_takeWhile

theorem take_length_takeWhile (p : Char → Bool) (s : List Char) : s.take (s.takeWhile p).length = s.takeWhile p :=
  (List.prefix_iff_eq_take.mp (List.takeWhile_prefix p)).symm

theorem significand_take {s : List Char} (h : significandLength s ≠ 0) : Significand (s.take (significandLength s)) := by
  have hdigits := digits_takeWhile s
  have hwhole := take_length_takeWhile isDecimalDigit s
  rw [significandLength] at h ⊢
  dsimp only at h ⊢
  split at h
  · next rest hrest =>
    split at h
    · exact absurd rfl h
    · next hsome =>
      rw [if_neg hsome, Nat.add_assoc, List.take_add, hwhole, hrest, Nat.add_comm 1, List.take_succ_cons,
        take_length_takeWhile]
      refine .pointed hdigits (digits_takeWhile rest) ?_
      rw [not_and_or, List.length_eq_zero_iff, List.length_eq_zero_iff] at hsome
      exact hsome
  · rw [hwhole]
    exact .whole (fun hnil => h (List.length_eq_zero_iff.mpr hnil)) hdigits

/-- What a sign takes is one or nothing. -/
theorem take_sign (s : List Char) :
    s.take (if s.head? = some '+' ∨ s.head? = some '-' then 1 else 0) = [] ∨
      s.take (if s.head? = some '+' ∨ s.head? = some '-' then 1 else 0) = ['+'] ∨
      s.take (if s.head? = some '+' ∨ s.head? = some '-' then 1 else 0) = ['-'] := by
  cases s with
  | nil => exact .inl rfl
  | cons c s =>
    split
    · next hsign =>
      rcases hsign with hsign | hsign
      · exact .inr (.inl (Option.some.inj hsign ▸ rfl))
      · exact .inr (.inr (Option.some.inj hsign ▸ rfl))
    · exact .inl rfl

theorem exponent_take {s : List Char} (h : exponentLength s ≠ 0) : Exponent (s.take (exponentLength s)) := by
  cases s with
  | nil => exact absurd rfl h
  | cons c rest =>
    rw [exponentLength] at h ⊢
    split at h
    · next hletter =>
      rw [if_pos hletter]
      dsimp only at h ⊢
      generalize hsign : (if rest.head? = some '+' ∨ rest.head? = some '-' then 1 else 0) = sign at h ⊢
      split at h
      · exact absurd rfl h
      · next hdigits =>
        rw [if_neg hdigits, Nat.add_assoc, Nat.add_comm 1, List.take_succ_cons, List.take_add, take_length_takeWhile]
        refine .mk hletter ?_ (fun hnil => hdigits (List.length_eq_zero_iff.mpr hnil)) (digits_takeWhile _)
        exact hsign ▸ take_sign rest
    · exact absurd rfl h

/-- **The rule for numbers takes numbers.** -/
theorem number_take {s : List Char} (h : numberLength s ≠ 0) : Number (s.take (numberLength s)) := by
  rw [numberLength] at h ⊢
  split at h
  · exact absurd rfl h
  · next hlength =>
    have hsignificand := significand_take hlength
    rw [List.take_add]
    by_cases hexponent : exponentLength (s.drop (significandLength s)) = 0
    · rw [hexponent, List.take_zero, List.append_nil]
      exact .plain hsignificand
    · exact .scaled hsignificand (exponent_take hexponent)

/-! ## How far the rule goes -/

/-- What follows does not go on with a number. -/
def StopsNumber (s : List Char) : Prop :=
  ∀ c ∈ s.head?, isDecimalDigit c = false ∧ c ≠ '.' ∧ c ≠ 'e' ∧ c ≠ 'E'

theorem significandLength_append {m r : List Char} (hm : Significand m)
    (hr : ∀ c ∈ r.head?, isDecimalDigit c = false ∧ c ≠ '.') : significandLength (m ++ r) = m.length := by
  have hstop : ∀ c ∈ r.head?, isDecimalDigit c = false := fun c hc => (hr c hc).1
  cases hm with
  | whole hne hd =>
    rw [significandLength, takeWhile_run hd hstop, List.drop_left]
    dsimp only
    split
    · exact absurd rfl (hr '.' rfl).2
    · rfl
  | @pointed d f hd hf hsome =>
    have hpoint : ∀ c ∈ ('.' :: (f ++ r)).head?, isDecimalDigit c = false := by
      rintro _ ⟨⟩
      decide
    rw [significandLength, List.append_assoc, List.cons_append, takeWhile_run hd hpoint, List.drop_left]
    simp only [takeWhile_run hf hstop]
    rw [if_neg, List.length_append, List.length_cons, Nat.add_assoc, Nat.add_comm 1]
    rw [not_and_or, List.length_eq_zero_iff, List.length_eq_zero_iff]
    exact hsome

theorem head?_sign_append {sign d r : List Char} (hsign : sign = [] ∨ sign = ['+'] ∨ sign = ['-']) (hne : d ≠ [])
    (hd : Digits d) : (if (sign ++ (d ++ r)).head? = some '+' ∨ (sign ++ (d ++ r)).head? = some '-' then 1 else 0) =
      sign.length := by
  rcases hsign with rfl | rfl | rfl
  · cases d with
    | nil => exact absurd rfl hne
    | cons c d =>
      refine if_neg ?_
      rintro (hplus | hminus)
      · exact absurd (hd c List.mem_cons_self) (Option.some.inj hplus ▸ by decide)
      · exact absurd (hd c List.mem_cons_self) (Option.some.inj hminus ▸ by decide)
  · exact if_pos (.inl rfl)
  · exact if_pos (.inr rfl)

theorem exponentLength_append {e r : List Char} (he : Exponent e) (hr : ∀ c ∈ r.head?, isDecimalDigit c = false) :
    exponentLength (e ++ r) = e.length := by
  cases he with
  | @mk letter sign d hletter hsign hne hd =>
    rw [List.cons_append, exponentLength, if_pos hletter, List.append_assoc]
    dsimp only
    rw [head?_sign_append hsign hne hd, List.drop_left, takeWhile_run hd hr,
      if_neg (mt List.length_eq_zero_iff.mp hne), List.length_cons, List.length_append]
    omega

theorem exponentLength_eq_zero {r : List Char} (hr : StopsNumber r) : exponentLength r = 0 := by
  cases r with
  | nil => rfl
  | cons c r =>
    rw [exponentLength, if_neg]
    exact not_or.mpr (hr c rfl).2.2

theorem Exponent.ne_nil {e : List Char} (he : Exponent e) : e ≠ [] := by
  cases he
  exact List.cons_ne_nil _ _

/-- An exponent goes on with no significand. -/
theorem Exponent.head? {e : List Char} (he : e = [] ∨ Exponent e) (r : List Char)
    (hr : e = [] → ∀ c ∈ r.head?, isDecimalDigit c = false ∧ c ≠ '.') :
    ∀ c ∈ (e ++ r).head?, isDecimalDigit c = false ∧ c ≠ '.' := by
  rcases he with rfl | he
  · exact hr rfl
  · cases he with
    | mk hletter _ _ _ =>
      rintro _ ⟨⟩
      rcases hletter with rfl | rfl
      · decide
      · decide

/-- **The rule takes all of a number** that nothing goes on with. -/
theorem numberLength_append {s r : List Char} (hs : Number s) (hr : StopsNumber r) :
    numberLength (s ++ r) = s.length := by
  have hlength {m : List Char} (hm : Significand m) : m.length ≠ 0 := by
    cases hm with
    | whole hne _ => exact mt List.length_eq_zero_iff.mp hne
    | pointed => simp
  cases hs with
  | plain hm =>
    rw [numberLength, significandLength_append hm fun c hc => ⟨(hr c hc).1, (hr c hc).2.1⟩]
    split
    · next hzero => exact absurd hzero (hlength hm)
    · rw [List.drop_left, exponentLength_eq_zero hr, Nat.add_zero]
  | @scaled m e hm he =>
    have hstart := Exponent.head? (.inr he) r fun hnil => (he.ne_nil hnil).elim
    rw [numberLength, List.append_assoc, significandLength_append hm hstart]
    split
    · next hzero => exact absurd hzero (hlength hm)
    · rw [List.drop_left, exponentLength_append he fun c hc => (hr c hc).1, List.length_append]

/-! ## Values -/

/-- The characters of numbers. -/
def IsNumberChar (c : Char) : Prop := isDecimalDigit c = true ∨ c ∈ ['.', 'e', 'E', '+', '-']

theorem Significand.chars {m : List Char} (hm : Significand m) : ∀ c ∈ m, IsNumberChar c := by
  cases hm with
  | whole _ hd => exact fun c hc => .inl (hd c hc)
  | pointed hd hf _ =>
    exact List.forall_mem_append.mpr ⟨fun c hc => .inl (hd c hc),
      List.forall_mem_cons.mpr ⟨.inr (by decide), fun c hc => .inl (hf c hc)⟩⟩

theorem Exponent.chars {e : List Char} (he : Exponent e) : ∀ c ∈ e, IsNumberChar c := by
  cases he with
  | @mk letter sign d hletter hsign _ hd =>
    refine List.forall_mem_cons.mpr ⟨.inr (by rcases hletter with rfl | rfl <;> decide),
      List.forall_mem_append.mpr ⟨?_, fun c hc => .inl (hd c hc)⟩⟩
    rcases hsign with rfl | rfl | rfl
    · exact nofun
    · exact List.forall_mem_singleton.mpr (.inr (by decide))
    · exact List.forall_mem_singleton.mpr (.inr (by decide))

theorem Number.chars {s : List Char} (hs : Number s) : ∀ c ∈ s, IsNumberChar c := by
  cases hs with
  | plain hm => exact hm.chars
  | scaled hm he => exact List.forall_mem_append.mpr ⟨hm.chars, he.chars⟩

/-- What neither a digit nor a mark of a number is, no character of one is. -/
theorem IsNumberChar.not {p : Char → Bool} (hdigit : ∀ z ∈ Tables.digitZeros, ∀ d < 10, p (Char.ofNat (z + d)) = false)
    (hmark : (['.', 'e', 'E', '+', '-'].all fun c => !p c) = true) {c : Char} (hc : IsNumberChar c) : p c = false :=
  hc.elim (not_of_isDecimalDigit hdigit) fun hmem => (Bool.not_eq_true' _).mp (List.all_eq_true.mp hmark c hmem)

theorem Digits.head?_not_sign {d : List Char} (hd : Digits d) : ∀ c ∈ d.head?, c ≠ '-' ∧ c ≠ '+' := by
  intro c hc
  have hdigit := hd c (List.mem_of_mem_head? hc)
  exact ⟨fun h => absurd hdigit (h ▸ by decide), fun h => absurd hdigit (h ▸ by decide)⟩

/-- A number starts with a digit or a point. -/
theorem Significand.exists_cons {m : List Char} (hm : Significand m) :
    ∃ c t, m = c :: t ∧ (isDecimalDigit c = true ∨ c = '.') := by
  cases hm with
  | whole hne hd =>
    obtain ⟨c, t, rfl⟩ := List.exists_cons_of_ne_nil hne
    exact ⟨c, t, rfl, .inl (hd c List.mem_cons_self)⟩
  | @pointed d f hd _ _ =>
    cases d with
    | nil => exact ⟨'.', f, rfl, .inr rfl⟩
    | cons c d => exact ⟨c, _, List.cons_append, .inl (hd c List.mem_cons_self)⟩

theorem Number.exists_cons {s : List Char} (hs : Number s) :
    ∃ c t, s = c :: t ∧ (isDecimalDigit c = true ∨ c = '.') := by
  cases hs with
  | plain hm => exact hm.exists_cons
  | scaled hm _ =>
    obtain ⟨c, t, rfl, hc⟩ := hm.exists_cons
    exact ⟨c, _, List.cons_append, hc⟩

theorem Number.head?_not_sign {s : List Char} (hs : Number s) : ∀ c ∈ s.head?, c ≠ '-' ∧ c ≠ '+' := by
  obtain ⟨c, t, rfl, hc⟩ := hs.exists_cons
  rintro _ ⟨⟩
  rcases hc with hc | rfl
  · exact Digits.head?_not_sign (List.forall_mem_singleton.mpr hc) c rfl
  · decide

theorem exists_readExponent {e : List Char} (he : Exponent e) : ∃ n, readExponent? e = some n := by
  cases he with
  | @mk letter sign d hletter hsign hne hd =>
    have hsplit : ∃ negative, splitSign (sign ++ d) = (negative, d) := by
      rcases hsign with rfl | rfl | rfl
      · exact ⟨false, splitSign_eq hd.head?_not_sign⟩
      · exact ⟨false, rfl⟩
      · exact ⟨true, rfl⟩
    obtain ⟨negative, hsplit⟩ := hsplit
    rw [readExponent?, if_pos hletter, hsplit]
    dsimp only
    rw [if_neg]
    · exact ⟨_, rfl⟩
    · rw [Bool.or_eq_true, not_or, List.isEmpty_iff, Bool.not_eq_true', Bool.not_eq_false]
      exact ⟨hne, List.all_eq_true.mpr hd⟩

/-- A number read as a decimal has a value. -/
theorem exists_readDecimal {m e : List Char} (hm : Significand m) (he : e = [] ∨ Exponent e) :
    ∃ x, readDecimal? false (m ++ e) = some x := by
  obtain ⟨n, hn⟩ : ∃ n, readExponent? e = some n := by
    rcases he with rfl | he
    · exact ⟨0, rfl⟩
    · exact exists_readExponent he
  have hstart : ∀ c ∈ e.head?, isDecimalDigit c = false ∧ c ≠ '.' :=
    List.append_nil e ▸ Exponent.head? he [] fun _ => nofun
  have hstop : ∀ c ∈ e.head?, isDecimalDigit c = false := fun c hc => (hstart c hc).1
  cases hm with
  | whole hne hd =>
    rw [readDecimal?, takeWhile_run hd hstop, dropWhile_run hd hstop]
    dsimp only
    split
    · exact absurd rfl (hstart '.' rfl).2
    · rw [if_neg (by rw [List.isEmpty_eq_false_iff.mpr hne]; exact Bool.false_ne_true), hn]
      exact ⟨_, rfl⟩
  | @pointed d f hd hf hsome =>
    have hpoint : ∀ c ∈ ('.' :: (f ++ e)).head?, isDecimalDigit c = false := by
      rintro _ ⟨⟩
      decide
    rw [readDecimal?, List.append_assoc, List.cons_append, takeWhile_run hd hpoint, dropWhile_run hd hpoint]
    simp only [takeWhile_run hf hstop, dropWhile_run hf hstop]
    rw [if_neg, hn]
    · exact ⟨_, rfl⟩
    · rw [Bool.and_eq_true, not_and_or, List.isEmpty_iff, List.isEmpty_iff]
      exact hsome

/-- The text is digits and nothing else. -/
def IsWhole (s : List Char) : Prop := ∀ c ∈ s, c ≠ '.' ∧ c ≠ 'e' ∧ c ≠ 'E'

theorem Number.trimBlanks_eq {s : List Char} (hs : Number s) : trimBlanks s = s :=
  SlotEdit.trimBlanks_eq fun c hc => (hs.chars c hc).not (by decide +kernel) (by decide)

theorem Number.dropUnderscores?_eq {s : List Char} (hs : Number s) :
    dropUnderscores? isDecimalDigit false s = some s := by
  refine SlotEdit.dropUnderscores?_eq (fun c hc heq => ?_) _ _
  have hnot := (hs.chars c hc).not (p := fun c => c == '_') (by decide +kernel) (by decide)
  exact absurd (beq_iff_eq.mpr heq) (Bool.eq_false_iff.mp hnot)

/-- A number can be read as one with a fraction. -/
theorem exists_readFloat {s : List Char} (hs : Number s) : ∃ x, readFloat (String.ofList s) = .ok x := by
  have hdecimal : ∃ x, readDecimal? false s = some x := by
    cases hs with
    | plain hm => exact List.append_nil s ▸ exists_readDecimal hm (.inl rfl)
    | scaled hm he => exact exists_readDecimal hm (.inr he)
  obtain ⟨x, hx⟩ := hdecimal
  have hfloat : ∃ x, readFloat? s = some x := by
    rw [readFloat?, hs.trimBlanks_eq, splitSign_eq hs.head?_not_sign]
    dsimp only
    split
    · next word _ => exact ⟨word, rfl⟩
    · rw [hs.dropUnderscores?_eq]
      exact ⟨x, hx⟩
  obtain ⟨y, hy⟩ := hfloat
  rw [readFloat, String.toList_ofList, hy]
  exact ⟨y, rfl⟩

/-- A whole number can be read if it is not too long. -/
theorem exists_readInt {s : List Char} (hs : Number s) (hwhole : IsWhole s) :
    (∃ n, readInt (String.ofList s) = .ok n) ↔ s.length ≤ digitLimit := by
  have hdigits : s ≠ [] ∧ Digits s := by
    cases hs with
    | plain hm =>
      cases hm with
      | whole hne hd => exact ⟨hne, hd⟩
      | pointed => exact absurd rfl (hwhole '.' (by simp)).1
    | scaled hm he =>
      cases he with
      | mk hletter _ _ _ =>
        have hmem := hwhole _ (List.mem_append_right _ List.mem_cons_self)
        exact absurd hletter (not_or.mpr hmem.2)
  rw [readInt, String.toList_ofList, hs.trimBlanks_eq, splitSign_eq hs.head?_not_sign]
  dsimp only
  rw [hs.dropUnderscores?_eq]
  dsimp only
  rw [if_neg, integerOfDigits]
  · split
    · next hlong => exact iff_of_false (by rintro ⟨_, ⟨⟩⟩) (Nat.not_le.mpr hlong)
    · next hshort => exact ⟨fun _ => Nat.not_lt.mp hshort, fun _ => ⟨_, rfl⟩⟩
  · rw [Bool.or_eq_true, not_or, List.isEmpty_iff, Bool.not_eq_true', Bool.not_eq_false]
    exact ⟨hdigits.1, List.all_eq_true.mpr hdigits.2⟩

/-- **Every number has a value**, but a whole one has none past `digitLimit` digits. -/
theorem exists_numberValue {s : List Char} (hs : Number s) :
    (∃ v, numberValue (String.ofList s) = .ok v) ↔ (IsWhole s → s.length ≤ digitLimit) := by
  rw [numberValue, String.toList_ofList]
  have hmarks : (s.any fun c => c == '.' || c == 'e' || c == 'E') = true ↔ ¬IsWhole s := by
    simp only [IsWhole, List.any_eq_true, Bool.or_eq_true, beq_iff_eq, not_forall, not_and_or, not_not, or_assoc,
      exists_prop]
  by_cases hwhole : IsWhole s
  · rw [if_neg (mt hmarks.mp (not_not.mpr hwhole)), forall_prop_of_true hwhole, ← exists_readInt hs hwhole]
    constructor
    · rintro ⟨v, hv⟩
      obtain ⟨n, hn, -⟩ := map_eq_ok.mp hv
      exact ⟨n, hn⟩
    · rintro ⟨n, hn⟩
      exact ⟨.int n, map_eq_ok.mpr ⟨n, hn, rfl⟩⟩
  · obtain ⟨x, hx⟩ := exists_readFloat hs
    rw [if_pos (hmarks.mpr hwhole), hx]
    exact iff_of_true ⟨.float x, rfl⟩ fun h => absurd h hwhole

end SlotEdit.Math
