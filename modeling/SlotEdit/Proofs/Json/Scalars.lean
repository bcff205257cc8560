import SlotEdit.Json.Decode
import SlotEdit.Json.Encode
import SlotEdit.Proofs.Decimal.Digits
import SlotEdit.Proofs.Json.Reading

/-!
# Proofs/Json/Scalars — integers and texts are read back as they were written

An integer is written as a number of the grammar (`numberLength_intText`) and read back
(`readScalar_intText`); a text is written as a string of the grammar (`stringEnd?_escaped`) and read
back character by character (`scanString_escaped`).
-/

namespace SlotEdit

namespace Json

namespace Grammar

/-! ## Integers -/

theorem minusLength_natText (n : Nat) : minusLength (natText n) = 0 := by
  obtain ⟨c, s, hc, hd⟩ := exists_natText n
  rw [minusLength, hc, if_neg]
  rintro heq
  obtain rfl := Option.some.inj heq
  exact absurd hd (by decide)

theorem wholeLength_natText (n : Nat) : wholeLength (natText n) = (natText n).length := by
  rw [wholeLength]
  split
  · next h =>
    have hzero : n = 0 := by_contra fun hn => head?_natText hn h
    rw [hzero]
    rfl
  · rw [digitsLength, List.takeWhile_eq_self_iff.mpr fun c hc => isAsciiDigit_natText hc]

theorem unsignedLength_natText (n : Nat) : unsignedLength (natText n) = (natText n).length := by
  have hne : (natText n).length ≠ 0 := fun h => Nat.toDigits_ne_nil (List.length_eq_zero_iff.mp h)
  rw [unsignedLength, both, wholeLength_natText, if_neg hne, List.drop_length]
  rfl

/-- **An integer is written as a number of the grammar.** -/
theorem numberLength_intText (n : Int) : numberLength (intText n) = (intText n).length := by
  have hne (m : Nat) : (natText m).length ≠ 0 := fun h =>
    Nat.toDigits_ne_nil (List.length_eq_zero_iff.mp h)
  rw [numberLength_eq, signed, both]
  cases n with
  | ofNat m =>
    rw [intText, minusLength_natText, List.drop_zero, unsignedLength_natText, if_neg (hne m), Nat.zero_add]
  | negSucc m =>
    have hminus : minusLength ('-' :: natText (m + 1)) = 1 := rfl
    rw [intText, hminus, List.drop_one, List.tail_cons, unsignedLength_natText, if_neg (hne _),
      List.length_cons, Nat.add_comm]

end Grammar

/-- A written integer starts with a minus or a digit. -/
theorem exists_intText (n : Int) : ∃ c s, intText n = c :: s ∧ (c = '-' ∨ isAsciiDigit c = true) := by
  cases n with
  | ofNat m =>
    obtain ⟨c, s, hc, hd⟩ := exists_natText m
    exact ⟨c, s, hc, Or.inr hd⟩
  | negSucc m => exact ⟨_, _, rfl, Or.inl rfl⟩

theorem intText_ne_nil (n : Int) : intText n ≠ [] := by
  obtain ⟨c, s, hc, -⟩ := exists_intText n
  rw [hc]
  exact List.cons_ne_nil c s

theorem digitsOf_natText_append (n : Nat) {s : List Char} (hs : Stops s) :
    digitsOf (natText n ++ s) = natText n := by
  rw [digitsOf, takeWhile_append_of_stop _ fun c hc => (hs c hc).1,
    List.takeWhile_eq_self_iff.mpr fun c hc => isAsciiDigit_natText hc]

theorem unsignedOf_natText (sign : List Char) (n : Nat) {s : List Char} (hs : Stops s) :
    (match natText n ++ s with
      | '0' :: _ => sign ++ ['0']
      | rest => if (digitsOf rest).isEmpty then [] else sign ++ digitsOf rest) = sign ++ natText n := by
  rcases eq_or_ne n 0 with rfl | hn
  · rfl
  · have hdigits := digitsOf_natText_append n hs
    have hhead := head?_natText hn
    obtain ⟨c, t, hc, -⟩ := exists_natText n
    rw [hc] at hdigits hhead ⊢
    split
    · next heq => exact absurd (congrArg some (List.cons.inj heq).1) hhead
    · rw [hdigits]
      rfl

/-- The integer part of a written integer is all of it. -/
theorem integerOf_intText (n : Int) {s : List Char} (hs : Stops s) :
    integerOf (intText n ++ s) = intText n := by
  cases n with
  | ofNat m =>
    obtain ⟨c, t, hc, hd⟩ := exists_natText m
    have hminus (t' : List Char) : natText m ++ s ≠ '-' :: t' := by
      intro heq
      rw [hc] at heq
      obtain rfl := (List.cons.inj heq).1
      exact absurd hd (by decide)
    rw [intText, integerOf]
    · exact unsignedOf_natText [] m hs
    · exact hminus
  | negSucc m => exact unsignedOf_natText ['-'] (m + 1) hs

theorem fractionOf_eq_nil {s : List Char} (hs : Stops s) : fractionOf s = [] := by
  rw [fractionOf.eq_def]
  split
  · exact absurd rfl (hs _ rfl).2.1
  · rfl

theorem exponentOf_eq_nil {s : List Char} (hs : Stops s) : exponentOf s = [] := by
  cases s with
  | nil => rfl
  | cons c s => exact if_neg fun h => h.elim (hs c rfl).2.2.1 (hs c rfl).2.2.2.1

theorem scanNumber?_intText (n : Int) {s : List Char} (hs : Stops s) :
    scanNumber? (intText n ++ s) = some (intText n, []) := by
  have hne : (intText n).isEmpty = false := List.isEmpty_eq_false_iff.mpr (intText_ne_nil n)
  rw [scanNumber?]
  simp only [integerOf_intText n hs, hne, List.drop_left, fractionOf_eq_nil hs, List.length_nil,
    List.drop_zero, exponentOf_eq_nil hs, List.append_nil, Bool.false_eq_true, if_false]

theorem numberValue_intText {n : Int} (h : n.natAbs < 10 ^ digitLimit) :
    numberValue (intText n) [] = .ok (.int n) := by
  cases n with
  | ofNat m =>
    have hlen : ¬ (natText m).length > digitLimit := Nat.not_lt.mpr (length_natText_le h)
    rw [intText, numberValue]
    simp only [List.isEmpty_nil, if_true, splitSign_natText, integerOfDigits, if_neg hlen,
      digitsValue_natText]
    rfl
  | negSucc m =>
    have hlen : ¬ (natText (m + 1)).length > digitLimit := Nat.not_lt.mpr (length_natText_le h)
    rw [intText, numberValue]
    simp only [List.isEmpty_nil, if_true, splitSign, integerOfDigits, if_neg hlen,
      digitsValue_natText]
    rfl

/-- No word starts like a number: with a digit, or with a minus that no word goes on behind. -/
theorem word?_eq_none {c : Char} {s : List Char} (h : isAsciiDigit c = true ∨ c = '-' ∧ s.head? ≠ some 'I')
    (o : Nat) : word? ⟨o, c :: s⟩ = none := by
  have hletter : ∀ d ∈ ['n', 't', 'f', 'N', 'I'], c ≠ d := by
    have hdigit : ∀ d ∈ ['n', 't', 'f', 'N', 'I'], isAsciiDigit d = false ∧ d ≠ '-' :=
      List.all_iff_forall_prop.mp rfl
    rintro d hd rfl
    exact h.elim (fun hc => absurd hc (Bool.eq_false_iff.mp (hdigit _ hd).1)) fun hc => (hdigit _ hd).2 hc.1
  rw [word?, List.findSome?_eq_none_iff]
  intro w hw
  rw [Option.map_eq_none_iff]
  simp only [words, List.mem_cons, List.not_mem_nil, or_false] at hw
  rcases hw with rfl | rfl | rfl | rfl | rfl | rfl
  rotate_right
  · -- The one word that starts with a minus goes on with a letter.
    refine if_neg fun hprefix => ?_
    have hletters : "-Infinity".toList = '-' :: 'I' :: "nfinity".toList := rfl
    rw [Cursor.startsWith, hletters, List.isPrefixOf_cons_cons, Bool.and_eq_true, beq_iff_eq] at hprefix
    obtain ⟨rfl, hprefix⟩ := hprefix
    obtain ⟨t, ht⟩ := List.isPrefixOf_iff_prefix.mp hprefix
    rcases h with hc | ⟨-, hc⟩
    · cases hc
    · exact hc (by rw [← ht]; rfl)
  all_goals exact Cursor.accept?_eq_none rfl (hletter _ (by decide)) o _

theorem word?_intText (n : Int) (o : Nat) (s : List Char) : word? ⟨o, intText n ++ s⟩ = none := by
  cases n with
  | ofNat m =>
    obtain ⟨c, t, hc, hd⟩ := exists_natText m
    rw [intText, hc, List.cons_append]
    exact word?_eq_none (.inl hd) o
  | negSucc m =>
    obtain ⟨c, t, hc, hd⟩ := exists_natText (m + 1)
    rw [intText, hc, List.cons_append, List.cons_append]
    refine word?_eq_none (.inr ⟨rfl, fun heq => ?_⟩) o
    obtain rfl := Option.some.inj heq
    cases hd

/-- **A written integer is read back**, whatever follows it that goes on with no number. -/
theorem readScalar_intText {n : Int} (h : n.natAbs < 10 ^ digitLimit) (o : Nat) {s : List Char}
    (hs : Stops s) :
    readScalar ⟨o, intText n ++ s⟩ = .ok (.int n, ⟨o + (intText n).length, s⟩) := by
  rw [readScalar, word?_intText]
  simp only [scanNumber?_intText n hs, numberValue_intText h, List.length_nil, Nat.add_zero,
    Cursor.drop_append]

/-! ## Texts -/

theorem hexValue?_hexDigit {d : Nat} (h : d < 16) : hexValue? (hexDigit d) = some d := by
  have hall : ∀ d < 16, hexValue? (hexDigit d) = some d := by decide
  exact hall d h

theorem hexPadded_four (n : Nat) : hexPadded 4 n =
    [hexDigit (n / 16 / 16 / 16 % 16), hexDigit (n / 16 / 16 % 16), hexDigit (n / 16 % 16),
      hexDigit (n % 16)] := rfl

/-- Four hexadecimal digits are read back when at least one more character follows them. -/
theorem hexFour?_hexPadded {n : Nat} (h : n < 65536) {s : List Char} (hs : s ≠ []) :
    hexFour? (hexPadded 4 n ++ s) = some n := by
  obtain ⟨c, t, rfl⟩ := List.exists_cons_of_ne_nil hs
  have hlt (m : Nat) : m % 16 < 16 := Nat.mod_lt m (by decide)
  rw [hexPadded_four]
  simp only [List.cons_append, List.nil_append, hexFour?, hexValue?_hexDigit (hlt _),
    Option.bind_eq_bind, Option.bind_some]
  refine congrArg some ?_
  omega

/-- The inside of a text written as a string, with its closing quote. -/
def escaped (s : String) : List Char := s.toList.flatMap escapeChar ++ ['"']

/-- How a character is written: as itself, as a letter behind a backslash, or as four digits. -/
theorem escapeChar_cases (c : Char) :
    (escapeChar c = [c] ∧ 32 ≤ c.toNat ∧ c ≠ '"' ∧ c ≠ '\\') ∨
    (∃ e, escapeChar c = ['\\', e] ∧ e ≠ 'u' ∧ e ∈ Grammar.escapeLetters ∧ simpleEscape? e = some c) ∨
    (escapeChar c = '\\' :: 'u' :: hexPadded 4 c.toNat ∧ c.toNat < 32) := by
  rw [escapeChar.eq_def]
  split
  case h_8 hquote hslash _ _ _ _ _ =>
    split
    · next hlt => exact Or.inr (Or.inr ⟨rfl, hlt⟩)
    · next hge => exact Or.inl ⟨rfl, Nat.le_of_not_lt hge, hquote, hslash⟩
  all_goals exact Or.inr (Or.inl ⟨_, rfl, by decide, by decide, rfl⟩)

theorem hexDigit_plain {d : Nat} (h : d < 16) :
    hexDigit d ≠ '"' ∧ hexDigit d ≠ '\\' ∧ hexDigit d ≠ '\n' := by
  have hall : ∀ d < 16, hexDigit d ≠ '"' ∧ hexDigit d ≠ '\\' ∧ hexDigit d ≠ '\n' := by decide
  exact hall d h

theorem stringEnd?_hexDigit {d : Nat} (h : d < 16) (s : List Char) :
    Grammar.stringEnd? (hexDigit d :: s) = (Grammar.stringEnd? s).map (· + 1) := by
  obtain ⟨hquote, hslash, hfeed⟩ := hexDigit_plain h
  rw [Grammar.stringEnd?_cons hquote hslash, if_neg hfeed]

theorem stringEnd?_escapeChar (c : Char) (s : List Char) :
    Grammar.stringEnd? (escapeChar c ++ s)
      = (Grammar.stringEnd? s).map (· + (escapeChar c).length) := by
  rcases escapeChar_cases c with ⟨hc, hlt, hquote, hslash⟩ | ⟨e, hc, -, he, -⟩ | ⟨hc, -⟩
  · have hfeed : c ≠ '\n' := by
      rintro rfl
      exact absurd hlt (by decide)
    rw [hc, List.singleton_append, Grammar.stringEnd?_cons hquote hslash, if_neg hfeed]
    rfl
  · rw [hc, List.cons_append, List.cons_append, List.nil_append, Grammar.stringEnd?, if_pos he]
    rfl
  · have hlt (m : Nat) : m % 16 < 16 := Nat.mod_lt m (by decide)
    rw [hc, hexPadded_four]
    simp only [List.cons_append]
    rw [Grammar.stringEnd?, if_pos (by decide), stringEnd?_hexDigit (hlt _),
      stringEnd?_hexDigit (hlt _), stringEnd?_hexDigit (hlt _), stringEnd?_hexDigit (hlt _)]
    simp only [Option.map_map]
    rfl

/-- **A text is written as a string of the grammar.** -/
theorem stringEnd?_escaped (s : String) : Grammar.stringEnd? (escaped s) = some (escaped s).length := by
  rw [escaped]
  induction s.toList with
  | nil => rfl
  | cons c cs ih =>
    rw [List.flatMap_cons, List.append_assoc, stringEnd?_escapeChar, ih, Option.map_some,
      @List.length_append _ (escapeChar c), Nat.add_comm]

/-- One written character is read back. -/
theorem scanString_escapeChar (start o : Nat) (c : Char) {s : List Char} (hs : s ≠ []) :
    scanString start o (escapeChar c ++ s) =
      (scanString start (o + (escapeChar c).length) s).map fun (cs, after) => (.char c :: cs, after) := by
  rcases escapeChar_cases c with ⟨hc, hlt, hquote, hslash⟩ | ⟨e, hc, hu, -, he⟩ | ⟨hc, hlt⟩
  · rw [hc, List.singleton_append, scanString]
    · rw [if_neg (by omega)]
      cases scanString start (o + 1) s <;> rfl
    · exact hquote
    · exact fun h _ => hslash h
    · exact fun _ h _ => hslash h
    · exact fun _ _ h _ => hslash h
  · rw [hc, List.cons_append, List.cons_append, List.nil_append, scanString]
    · simp only [he]
      cases scanString start (o + 2) s <;> rfl
    · exact hu
  · have hlen : (hexPadded 4 c.toNat).length = 4 := rfl
    have hhigh : isHighSurrogate c.toNat = false := decide_eq_false fun h => by omega
    have hlow : isLowSurrogate c.toNat = false := decide_eq_false fun h => by omega
    have hfour : hexFour? (hexPadded 4 c.toNat ++ s) = some c.toNat :=
      hexFour?_hexPadded (by omega) hs
    have hchar : letterOfCode c.toNat = .char c := by
      rw [letterOfCode, hhigh, hlow, Bool.or_false, if_neg Bool.false_ne_true, Char.ofNat_toNat]
    rw [hc, List.cons_append, List.cons_append, scanString]
    simp only [hfour, hhigh, Bool.false_eq_true, false_and, if_false, hchar,
      List.drop_left' hlen, List.length_cons, hlen]
    cases scanString start (o + 6) s <;> rfl

/-- **A text written as a string is read back**, whatever follows it. -/
theorem scanString_escaped (start o : Nat) (s : String) (rest : List Char) :
    scanString start o (escaped s ++ rest) =
      .ok ((s : LooseText).letters, ⟨o + (escaped s).length, rest⟩) := by
  rw [escaped, LooseText.letters_ofString]
  generalize s.toList = cs
  induction cs generalizing o with
  | nil => rw [List.flatMap_nil, List.nil_append, List.cons_append, scanString]; rfl
  | cons c cs ih =>
    rw [List.flatMap_cons, List.append_assoc, List.append_assoc, scanString_escapeChar _ _ _ (by simp),
      ← List.append_assoc (cs.flatMap escapeChar), ih]
    simp only [Except.map, List.length_append]
    refine congrArg Except.ok (Prod.ext rfl (congrArg (Cursor.mk · rest) ?_))
    omega

end Json

end SlotEdit
