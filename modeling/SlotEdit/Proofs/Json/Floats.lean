import SlotEdit.Proofs.Decimal.Shortest
import SlotEdit.Proofs.Json.Numerals

/-!
# Proofs/Json/Floats — floating-point numbers are read back as they were written

A decimal is written as a number, with a point or an exponent always (`exists_spells`), and each
number is read as the nearest one to what it spells (`readFloat?_spells`).  The shortest decimal
rounds back, so a written number is read back (`denotes_chars`); it is one of the grammar unless its
exponent has a plus (`shaped_chars`).
-/

namespace SlotEdit.Json

open Binary64

/-- **What a number spells**: a whole number times a power of ten, and it has a point or an exponent. -/
structure Spells (w f x : List Char) (digits : Nat) (scale : Int) : Prop where
  whole : Natural w
  fraction : Fraction f
  exponent : Exponent x
  nonempty : f ++ x ≠ []
  digits : digitsValue (w ++ f.tail) = digits
  scale : readExponent? x = some (scale + f.tail.length)

/-! ## Reading -/

theorem Natural.isDigits {w : List Char} (h : Natural w) : Digits w := by
  cases h with
  | zero => exact List.forall_mem_singleton.mpr rfl
  | digits _ _ hd => exact hd

/-- No character of a number is a blank or an underscore. -/
theorem apart_of_isNumberChar {c : Char} (h : Grammar.isNumberChar c = true ∨ c = '+') :
    isBlank c = false ∧ c ≠ '_' := by
  rcases h with h | rfl
  · simp only [Grammar.isNumberChar, Bool.or_eq_true, beq_iff_eq] at h
    rcases h with (((h | rfl) | rfl) | rfl) | rfl
    · refine ⟨isBlank_eq_false_of_isDecimalDigit (isDecimalDigit_of_isAsciiDigit h), ?_⟩
      rintro rfl
      cases h
    all_goals decide
  · decide

/-- No word starts with a digit. -/
theorem readWord?_eq_none {c : Char} (h : isAsciiDigit c = true) (negative : Bool) (t : List Char) :
    readWord? negative (c :: t) = none := by
  have hcode : 48 ≤ c.toNat ∧ c.toNat ≤ 57 := of_decide_eq_true h
  have hlower : asciiLowerChar c = c := if_neg fun hupper => absurd (show 65 ≤ c.toNat from hupper.1) (by omega)
  have hne {word : String} {d : Char} (hword : word.toList.head? = some d) (hd : isAsciiDigit d = false)
      (heq : String.ofList ((c :: t).map asciiLowerChar) = word) : False := by
    rw [← heq, String.toList_ofList, List.map_cons, hlower] at hword
    rw [← Option.some.inj hword, h] at hd
    cases hd
  rw [readWord?.eq_def]
  split
  · next heq => exact absurd heq (hne (d := 'i') rfl rfl)
  · next heq => exact absurd heq (hne (d := 'i') rfl rfl)
  · next heq => exact absurd heq (hne (d := 'n') rfl rfl)
  · rfl

section Reading

variable {w f x : List Char} {digits : Nat} {scale : Int}

theorem readDecimal?_spells (h : Spells w f x digits scale) (negative : Bool) :
    readDecimal? negative (w ++ (f ++ x)) = some (ofDecimal negative digits scale) := by
  have hdigits {d : List Char} (hd : Digits d) : ∀ c ∈ d, isDecimalDigit c = true :=
    fun c hc => isDecimalDigit_of_isAsciiDigit (hd c hc)
  have hexponent : ∀ c ∈ x.head?, isDecimalDigit c = false ∧ c ≠ '.' := by
    cases h.exponent with
    | none => exact fun c hc => nomatch hc
    | digits hletter _ _ _ =>
      intro c hc
      obtain rfl := Option.some.inj hc
      rcases hletter with rfl | rfl <;> decide
  have hstop : ∀ c ∈ x.head?, isDecimalDigit c = false := fun c hc => (hexponent c hc).1
  have hne : w.isEmpty = false := by
    obtain ⟨c, t, rfl, -⟩ := exists_digit h.whole
    rfl
  have hvalue := h.digits
  have hscale := h.scale
  rw [readDecimal?]
  cases h.fraction with
  | none =>
    rw [List.nil_append, takeWhile_run (hdigits h.whole.isDigits) hstop, dropWhile_run (hdigits h.whole.isDigits) hstop]
    dsimp only
    split
    · exact absurd rfl (hexponent '.' rfl).2
    · rw [hne, Bool.false_and, if_neg Bool.false_ne_true, hscale, Option.map_some]
      simp only [List.tail_nil, List.append_nil] at hvalue
      simp [hvalue]
  | @digits d hd hdigit =>
    have hpoint : ∀ c ∈ ('.' :: (d ++ x)).head?, isDecimalDigit c = false := by
      rintro _ ⟨⟩
      decide
    rw [List.cons_append, takeWhile_run (hdigits h.whole.isDigits) hpoint,
      dropWhile_run (hdigits h.whole.isDigits) hpoint]
    simp only [takeWhile_run (hdigits hdigit) hstop, dropWhile_run (hdigits hdigit) hstop, hne, Bool.false_and,
      Bool.false_eq_true, if_false, hscale, Option.map_some, List.tail_cons, add_sub_cancel_right]
    rw [← hvalue, List.tail_cons]

/-- **A number is read as the nearest one** to what it spells. -/
theorem readFloat?_spells (h : Spells w f x digits scale) (negative : Bool) :
    readFloat? ((if negative then ['-'] else []) ++ (w ++ (f ++ x))) = some (ofDecimal negative digits scale) := by
  have hnumeral : Numeral w (f ++ x) := ⟨.plain h.whole, f, x, h.fraction, h.exponent, rfl⟩
  have hapart : ∀ c ∈ w ++ (f ++ x), isBlank c = false ∧ c ≠ '_' :=
    fun c hc => apart_of_isNumberChar (hnumeral.chars c hc)
  obtain ⟨c, t, hcons, hc⟩ : ∃ c t, w ++ (f ++ x) = c :: t ∧ isAsciiDigit c = true := by
    obtain ⟨c, t, rfl, hc⟩ := exists_digit h.whole
    exact ⟨c, _, rfl, hc⟩
  have htrim : trimBlanks ((if negative then ['-'] else []) ++ (w ++ (f ++ x))) =
      (if negative then ['-'] else []) ++ (w ++ (f ++ x)) := by
    refine trimBlanks_eq (List.forall_mem_append.mpr ⟨?_, fun c hc => (hapart c hc).1⟩)
    cases negative
    · exact fun c hc => nomatch hc
    · exact List.forall_mem_singleton.mpr rfl
  have hsplit : splitSign ((if negative then ['-'] else []) ++ (w ++ (f ++ x))) = (negative, w ++ (f ++ x)) := by
    cases negative
    · refine splitSign_eq fun c' hc' => ?_
      have hfirst : c' = c := by
        rw [if_neg Bool.false_ne_true, List.nil_append, hcons] at hc'
        exact (Option.some.inj hc').symm
      constructor <;>
        · rintro rfl
          subst hfirst
          cases hc
    · rfl
  have hword : readWord? negative (w ++ (f ++ x)) = none := by
    rw [hcons]
    exact readWord?_eq_none hc negative t
  rw [readFloat?, htrim, hsplit]
  dsimp only
  rw [hword, dropUnderscores?_eq fun c hc => (hapart c hc).2]
  exact readDecimal?_spells h negative

end Reading

/-! ## Writing -/

theorem isAsciiDigit_of_mem_padded {k n : Nat} {c : Char} (h : c ∈ List.replicate k '0' ++ natText n) :
    isAsciiDigit c = true :=
  (List.mem_append.mp h).elim isAsciiDigit_of_mem_replicate isAsciiDigit_natText

theorem exponent_exponentText (e : Int) : Exponent (Scientific.exponentText e) := by
  rw [Scientific.exponentText]
  have hdigits : ∀ c ∈ List.replicate (2 - (natText e.natAbs).length) '0' ++ natText e.natAbs, isAsciiDigit c = true :=
    fun c hc => isAsciiDigit_of_mem_padded hc
  have hne : List.replicate (2 - (natText e.natAbs).length) '0' ++ natText e.natAbs ≠ [] :=
    List.append_ne_nil_of_right_ne_nil _ Nat.toDigits_ne_nil
  have hsign (c : Char) (h : c = '+' ∨ c = '-') : [c] = [] ∨ [c] = ['+'] ∨ [c] = ['-'] :=
    .inr (h.imp (congrArg List.singleton) (congrArg List.singleton))
  exact @Exponent.digits 'e' [_] _ (.inl rfl) (hsign _ (by split <;> simp)) hne hdigits

theorem readExponent?_exponentText (e : Int) : readExponent? (Scientific.exponentText e) = some e := by
  generalize hpadded : List.replicate (2 - (natText e.natAbs).length) '0' ++ natText e.natAbs = padded
  have hdigits : ∀ c ∈ padded, isAsciiDigit c = true := hpadded ▸ fun c hc => isAsciiDigit_of_mem_padded hc
  have hvalue : digitsValue padded = e.natAbs := by
    rw [← hpadded, digitsValue_zeros_append _ fun c hc => isAsciiDigit_natText hc, digitsValue_natText]
  have hread : (padded.isEmpty || !padded.all isDecimalDigit) = false := by
    rw [Bool.or_eq_false_iff, Bool.not_eq_false', List.all_eq_true, List.isEmpty_eq_false_iff, ← hpadded]
    exact ⟨List.append_ne_nil_of_right_ne_nil _ Nat.toDigits_ne_nil,
      fun c hc => isDecimalDigit_of_isAsciiDigit (isAsciiDigit_of_mem_padded hc)⟩
  have hsplit : splitSign ((if e < 0 then '-' else '+') :: padded) = (decide (e < 0), padded) := by
    split
    · next hneg => rw [decide_eq_true hneg]; rfl
    · next hneg => rw [decide_eq_false hneg]; rfl
  rw [Scientific.exponentText, List.cons_append, List.cons_append, hpadded, readExponent?, if_pos (.inl rfl), hsplit]
  dsimp only
  rw [hread, if_neg Bool.false_ne_true, hvalue]
  refine congrArg some ?_
  by_cases hneg : e < 0
  · rw [decide_eq_true hneg, if_pos rfl]
    omega
  · rw [decide_eq_false hneg, if_neg Bool.false_ne_true]
    omega

section Writing

variable {d : List Char}

/-- The part before the point starts with the first digit, so not with a zero. -/
theorem natural_take_append (hd : Digits d) (hne : d ≠ []) (hzero : d.head? ≠ some '0') {n : Nat} (hn : 0 < n)
    (k : Nat) : Natural (d.take n ++ List.replicate k '0') := by
  obtain ⟨c, t, rfl⟩ := List.exists_cons_of_ne_nil hne
  obtain ⟨n, rfl⟩ := Nat.exists_eq_succ_of_ne_zero hn.ne'
  rw [List.take_succ_cons]
  refine .digits (List.cons_ne_nil _ _) hzero (List.forall_mem_append.mpr ⟨fun b hb => hd b ?_, ?_⟩)
  · exact List.mem_of_mem_take (i := n + 1) hb
  · exact fun b hb => isAsciiDigit_of_mem_replicate hb

/-- **Digits with a point** spell them with the places in front of it. -/
theorem exists_spells_pointed (hd : Digits d) (hne : d ≠ []) (hzero : d.head? ≠ some '0') (places : Int) :
    ∃ w f digits scale, Scientific.pointed d places = w ++ f ∧ Spells w f [] digits scale ∧
      digits * (10 : ℚ) ^ scale = digitsValue d * (10 : ℚ) ^ (places - d.length) := by
  rw [Scientific.pointed]
  split
  · next hplaces =>
    -- zeros behind the point, and all digits behind them
    have hzeros : Digits (List.replicate (-places).toNat '0' ++ d) :=
      List.forall_mem_append.mpr ⟨fun c hc => isAsciiDigit_of_mem_replicate hc, hd⟩
    refine ⟨['0'], '.' :: (List.replicate (-places).toNat '0' ++ d), digitsValue d, places - d.length, rfl,
      ⟨.zero, .digits (List.append_ne_nil_of_right_ne_nil _ hne) hzeros, .none, List.cons_ne_nil _ _, ?_, ?_⟩, rfl⟩
    · rw [List.tail_cons, ← List.append_assoc, ← List.replicate_one, ← List.replicate_add, digitsValue_zeros_append _ hd]
    · rw [readExponent?, List.tail_cons, List.length_append, List.length_replicate]
      refine congrArg some ?_
      push_cast
      omega
  · next hplaces =>
    obtain ⟨n, rfl⟩ := Int.eq_ofNat_of_zero_le (show 0 ≤ places by omega)
    have hn : 0 < n := by omega
    rw [Int.toNat_natCast]
    dsimp only
    have hwhole := natural_take_append hd hne hzero hn (n - d.length)
    rcases Nat.lt_or_ge n d.length with hlt | hge
    · -- the point stands among the digits
      have hfraction : d.drop n ≠ [] := by
        rw [ne_eq, List.drop_eq_nil_iff]
        omega
      rw [Nat.sub_eq_zero_of_le hlt.le] at hwhole ⊢
      rw [List.isEmpty_eq_false_iff.mpr hfraction, if_neg Bool.false_ne_true, List.replicate_zero, List.append_nil] at *
      refine ⟨d.take n, '.' :: d.drop n, digitsValue d, n - d.length, rfl,
        ⟨hwhole, .digits hfraction fun c hc => hd c (List.mem_of_mem_drop hc), .none, List.cons_ne_nil _ _, ?_, ?_⟩, rfl⟩
      · rw [List.tail_cons, List.take_append_drop]
      · rw [readExponent?, List.tail_cons, List.length_drop]
        refine congrArg some ?_
        omega
    · -- zeros fill the places before the point, and one stands behind it
      rw [List.drop_eq_nil_of_le hge, List.take_of_length_le hge] at *
      refine ⟨d ++ List.replicate (n - d.length) '0', ['.', '0'], digitsValue d * 10 ^ (n - d.length + 1), -1, rfl,
        ⟨hwhole, .digits (List.cons_ne_nil _ _) (List.forall_mem_singleton.mpr rfl), .none, List.cons_ne_nil _ _, ?_,
          rfl⟩, ?_⟩
      · rw [List.tail_cons, List.append_assoc, ← List.replicate_one, ← List.replicate_add, digitsValue_append_zeros _ hd]
      · push_cast
        rw [mul_assoc, ← zpow_natCast, ← zpow_add₀ (by norm_num)]
        congr 2
        push_cast
        omega

end Writing

/-- **A decimal is written as a number** with a point or an exponent. -/
theorem exists_spells {s : Scientific} (hs : s.digits ≠ 0) : ∃ w f x digits scale, s.chars = w ++ (f ++ x) ∧
    Spells w f x digits scale ∧ digits * (10 : ℚ) ^ scale = s.value := by
  have hd : Digits (natText s.digits) := fun c hc => isAsciiDigit_natText hc
  have hne : natText s.digits ≠ [] := Nat.toDigits_ne_nil
  have hzero := head?_natText hs
  have hvalue : s.value = digitsValue (natText s.digits) * (10 : ℚ) ^ (s.exponent + 1 - (natText s.digits).length) := by
    rw [digitsValue_natText]
    rfl
  rw [hvalue, Scientific.chars]
  dsimp only
  split
  · obtain ⟨w, f, digits, scale, hpointed, hspells, hscale⟩ := exists_spells_pointed hd hne hzero (s.exponent + 1)
    exact ⟨w, f, [], digits, scale, by rw [hpointed, List.append_nil], hspells, hscale⟩
  · have hwhole := natural_take_append hd hne hzero Nat.one_pos 0
    rw [List.replicate_zero, List.append_nil] at hwhole
    have hlen := List.length_pos_iff.mpr hne
    generalize natText s.digits = d at hd hne hwhole hlen ⊢
    have hfraction : Fraction (if (d.drop 1).isEmpty then [] else '.' :: d.drop 1) ∧
        (if (d.drop 1).isEmpty then [] else '.' :: d.drop 1).tail = d.drop 1 := by
      split
      · next hempty => exact ⟨.none, (List.isEmpty_iff.mp hempty).symm⟩
      · next hempty =>
        exact ⟨.digits (fun h => hempty (List.isEmpty_iff.mpr h)) fun c hc => hd c (List.mem_of_mem_drop hc), rfl⟩
    refine ⟨d.take 1, _, Scientific.exponentText s.exponent, digitsValue d, s.exponent + 1 - d.length,
      List.append_assoc _ _ _, ⟨hwhole, hfraction.1, exponent_exponentText _, ?_, ?_, ?_⟩, rfl⟩
    · exact List.append_ne_nil_of_right_ne_nil _ (List.cons_ne_nil _ _)
    · rw [hfraction.2, List.take_append_drop]
    · rw [hfraction.2, readExponent?_exponentText, List.length_drop]
      refine congrArg some ?_
      push_cast [hlen]
      omega

/-! ## Reading back -/

/-- **A number that the grammar has a form for** once it is written: one with digits, and without a plus in
front of its exponent. -/
def Regular (x : Binary64) : Prop := (∃ negative m e, x = .finite negative m e) ∧ '+' ∉ x.chars

variable {x : Binary64}

/-- **A written number is read back.** -/
theorem exists_chars (negative : Bool) {m : Nat} {e : Int} (h : InForm m e) : ∃ w f x digits scale,
    (Binary64.finite negative m e).chars = (if negative then ['-'] else []) ++ (w ++ (f ++ x)) ∧
      Spells w f x digits scale ∧ ofDecimal negative digits scale = .finite negative m e := by
  rw [chars]
  rcases Nat.eq_zero_or_pos m with rfl | hm
  · obtain rfl : e = leastExponent := h.normal.resolve_left (by decide)
    exact ⟨['0'], ['.', '0'], [], 0, -1, rfl, ⟨.zero, .digits (List.cons_ne_nil _ _)
      (List.forall_mem_singleton.mpr rfl), .none, List.cons_ne_nil _ _, rfl, rfl⟩, rfl⟩
  · obtain ⟨hne, hnear⟩ := near_shortest h hm
    obtain ⟨w, f, x, digits, scale, hchars, hspells, hvalue⟩ := exists_spells hne
    rw [← hvalue] at hnear
    rw [if_neg hm.ne', hchars]
    exact ⟨w, f, x, digits, scale, rfl, hspells, ofDecimal_eq negative h hm hnear⟩

theorem integral_sign {w : List Char} (hw : Natural w) (negative : Bool) :
    Integral ((if negative then ['-'] else []) ++ w) := by
  cases negative
  · exact .plain hw
  · exact .minus hw

/-- A finite number is written as a number of the decoder, and is the value of it. -/
theorem exists_numeral_chars (negative : Bool) {m : Nat} {e : Int} (h : InForm m e) : ∃ whole tail,
    Numeral whole tail ∧ (Binary64.finite negative m e).chars = whole ++ tail ∧
      numberValue whole tail = .ok (.float (.finite negative m e)) := by
  obtain ⟨w, f, x, digits, scale, hchars, hspells, hvalue⟩ := exists_chars negative h
  have hread := readFloat?_spells hspells negative
  rw [← List.append_assoc] at hchars hread
  refine ⟨_, f ++ x, ⟨integral_sign hspells.whole negative, f, x, hspells.fraction, hspells.exponent, rfl⟩, hchars, ?_⟩
  rw [numberValue, List.isEmpty_eq_false_iff.mpr hspells.nonempty, if_neg Bool.false_ne_true, hread, hvalue]
  rfl

/-- **A written number decodes to the number.** -/
theorem denotes_chars (hcanonical : x.Canonical) (h : Regular x) : Denotes x.chars (.float x) := by
  obtain ⟨⟨negative, m, e, rfl⟩, -⟩ := h
  obtain ⟨whole, tail, hnumeral, hchars, hvalue⟩ := exists_numeral_chars negative hcanonical
  exact ⟨whole, tail, hnumeral, hvalue, hchars⟩

/-- **A written number is one of the grammar** unless it has a plus. -/
theorem shaped_chars (hcanonical : x.Canonical) (h : Regular x) : (Phrase.number x.chars).Shaped := by
  obtain ⟨⟨negative, m, e, rfl⟩, hplus⟩ := h
  obtain ⟨whole, tail, hnumeral, hchars, -⟩ := exists_numeral_chars negative hcanonical
  rw [hchars] at hplus ⊢
  exact .number (List.append_ne_nil_of_left_ne_nil hnumeral.whole.ne_nil _)
    (Grammar.numberLength_numeral hnumeral fun hmem => hplus (List.mem_append_right _ hmem))

theorem decode_chars [Interpreter] (hcanonical : x.Canonical) (h : Regular x) :
    decode (String.ofList x.chars) = .ok (.float x) :=
  (denotes_chars hcanonical h).decode_eq (shaped_chars hcanonical h)

end SlotEdit.Json
