import SlotEdit.Proofs.Json.Strings

/-!
# Proofs/Json/Numerals — the numbers that decode

A `Numeral` is what decoding reads as a number, whatever follows it that goes on with none
(`scanNumber?_append`).  It is a number of the grammar too, unless its exponent has a plus
(`numberLength_numeral`).
-/

namespace SlotEdit.Json

/-- Digits of a number. -/
def Digits (s : List Char) : Prop := ∀ c ∈ s, isAsciiDigit c = true

/-- Zero, or digits that do not start with it. -/
inductive Natural : List Char → Prop
  | zero : Natural ['0']
  | digits {d : List Char} : d ≠ [] → d.head? ≠ some '0' → Digits d → Natural d

/-- The integer part of a number. -/
inductive Integral : List Char → Prop
  | plain {d : List Char} : Natural d → Integral d
  | minus {d : List Char} : Natural d → Integral ('-' :: d)

/-- A point and digits, or nothing. -/
inductive Fraction : List Char → Prop
  | none : Fraction []
  | digits {d : List Char} : d ≠ [] → Digits d → Fraction ('.' :: d)

/-- A letter, perhaps a sign, and digits, or nothing. -/
inductive Exponent : List Char → Prop
  | none : Exponent []
  | digits {letter : Char} {sign d : List Char} : letter = 'e' ∨ letter = 'E' →
      sign = [] ∨ sign = ['+'] ∨ sign = ['-'] → d ≠ [] → Digits d → Exponent (letter :: (sign ++ d))

/-- **A number**: an integer part and a tail of a fraction and an exponent. -/
structure Numeral (whole tail : List Char) : Prop where
  whole : Integral whole
  tail : ∃ fraction exponent, Fraction fraction ∧ Exponent exponent ∧ tail = fraction ++ exponent

theorem digits_digitsOf (s : List Char) : Digits (digitsOf s) := List.all_eq_true.mp List.all_takeWhile

/-- Digits end where no further one follows. -/
theorem digitsOf_run {d s : List Char} (hd : Digits d) (hs : ∀ c ∈ s.head?, isAsciiDigit c = false) :
    digitsOf (d ++ s) = d := takeWhile_run hd hs

/-- A minus in front, if there is one. -/
def minusOf : List Char → List Char
  | '-' :: _ => ['-']
  | _ => []

/-- A zero in front, or the digits. -/
def naturalOf : List Char → List Char
  | '0' :: _ => ['0']
  | s => digitsOf s

theorem naturalOf_cons (c : Char) (s : List Char) :
    naturalOf (c :: s) = if c = '0' then ['0'] else digitsOf (c :: s) := by
  rw [naturalOf.eq_def]
  split
  · next heq => rw [if_pos (List.cons.inj heq).1]
  · next hzero => rw [if_neg fun heq => hzero s (by rw [heq])]

theorem integerOf_eq (s : List Char) : integerOf s =
    if naturalOf (s.drop (minusOf s).length) = [] then [] else minusOf s ++ naturalOf (s.drop (minusOf s).length) := by
  have hnatural (sign t : List Char) : (match t with
      | '0' :: _ => sign ++ ['0']
      | rest => if (digitsOf rest).isEmpty then [] else sign ++ digitsOf rest) =
      if naturalOf t = [] then [] else sign ++ naturalOf t := by
    rw [naturalOf.eq_def]
    split
    · rfl
    · simp only [List.isEmpty_iff]
  exact hnatural (minusOf s) _

/-- A sign in front, if there is one. -/
def signOf (s : List Char) : List Char := (s.takeWhile fun d => d == '+' || d == '-').take 1

theorem exponentOf_cons (c : Char) (s : List Char) : exponentOf (c :: s) =
    if (c = 'e' ∨ c = 'E') ∧ digitsOf (s.drop (signOf s).length) ≠ [] then
      c :: (signOf s ++ digitsOf (s.drop (signOf s).length))
    else [] := by
  rw [exponentOf]
  split
  · next hletter =>
    simp only [List.isEmpty_iff, hletter, true_and, ne_eq, ite_not, List.cons_append]
    rfl
  · next hletter => rw [if_neg fun h => hletter h.1]

/-! ## What is taken -/

theorem minusOf_prefix (s : List Char) : (minusOf s = [] ∨ minusOf s = ['-']) ∧ s = minusOf s ++ s.drop (minusOf s).length := by
  rw [minusOf.eq_def]
  split
  · exact ⟨.inr rfl, rfl⟩
  · exact ⟨.inl rfl, rfl⟩

theorem naturalOf_prefix {s : List Char} (h : naturalOf s ≠ []) : Natural (naturalOf s) ∧ naturalOf s <+: s := by
  cases s with
  | nil => exact absurd rfl h
  | cons c s =>
    rw [naturalOf_cons] at h ⊢
    split
    · next hzero => exact ⟨.zero, List.cons_prefix_cons.mpr ⟨hzero.symm, List.nil_prefix⟩⟩
    · next hzero =>
      rw [if_neg hzero] at h
      refine ⟨.digits h ?_ (digits_digitsOf _), List.takeWhile_prefix _⟩
      rw [digitsOf, List.takeWhile_cons]
      split
      · exact fun heq => hzero (Option.some.inj heq)
      · exact (Option.some_ne_none _).symm

theorem integerOf_prefix {s : List Char} (h : integerOf s ≠ []) : Integral (integerOf s) ∧ integerOf s <+: s := by
  rw [integerOf_eq] at h ⊢
  split at h
  · exact absurd rfl h
  · next hne =>
    rw [if_neg hne]
    obtain ⟨hnatural, hprefix⟩ := naturalOf_prefix hne
    obtain ⟨hminus, hs⟩ := minusOf_prefix s
    refine ⟨?_, ?_⟩
    · rcases hminus with hminus | hminus <;> rw [hminus] at hnatural ⊢
      · exact .plain hnatural
      · exact .minus hnatural
    · conv_rhs => rw [hs]
      exact (List.prefix_append_right_inj _).mpr hprefix

theorem fractionOf_prefix (s : List Char) : Fraction (fractionOf s) ∧ fractionOf s <+: s := by
  rw [fractionOf.eq_def]
  split
  · next rest =>
    split
    · exact ⟨.none, List.nil_prefix⟩
    · next hne =>
      refine ⟨.digits (fun hnil => hne (List.isEmpty_iff.mpr hnil)) (digits_digitsOf rest), ?_⟩
      exact List.cons_prefix_cons.mpr ⟨rfl, List.takeWhile_prefix _⟩
  · exact ⟨.none, List.nil_prefix⟩

theorem signOf_prefix (s : List Char) :
    (signOf s = [] ∨ signOf s = ['+'] ∨ signOf s = ['-']) ∧ s = signOf s ++ s.drop (signOf s).length := by
  have hprefix : signOf s <+: s := (List.take_prefix _ _).trans (List.takeWhile_prefix _)
  refine ⟨?_, (List.prefix_iff_eq_append.mp hprefix).symm⟩
  cases s with
  | nil => exact .inl rfl
  | cons c s =>
    rw [signOf, List.takeWhile_cons]
    split
    · next hsign =>
      rw [Bool.or_eq_true, beq_iff_eq, beq_iff_eq] at hsign
      rcases hsign with rfl | rfl
      · exact .inr (.inl rfl)
      · exact .inr (.inr rfl)
    · exact .inl rfl

theorem exponentOf_prefix (s : List Char) : Exponent (exponentOf s) ∧ exponentOf s <+: s := by
  cases s with
  | nil => exact ⟨.none, List.nil_prefix⟩
  | cons c s =>
    rw [exponentOf_cons]
    split
    · next h =>
      obtain ⟨hsign, hs⟩ := signOf_prefix s
      refine ⟨.digits h.1 hsign h.2 (digits_digitsOf _), List.cons_prefix_cons.mpr ⟨rfl, ?_⟩⟩
      conv_rhs => rw [hs]
      exact (List.prefix_append_right_inj _).mpr (List.takeWhile_prefix _)
    · exact ⟨.none, List.nil_prefix⟩

/-- **What is read as a number is one**, in front of the text. -/
theorem numeral_of_scanNumber? {s whole tail : List Char} (h : scanNumber? s = some (whole, tail)) :
    Numeral whole tail ∧ ∃ rest, s = whole ++ tail ++ rest := by
  rw [scanNumber?] at h
  dsimp only at h
  split at h
  · cases h
  · next hne =>
    obtain ⟨hwhole, htail⟩ := Prod.mk.inj (Option.some.inj h)
    obtain ⟨hintegral, hprefix⟩ := integerOf_prefix (s := s) fun hnil => hne (List.isEmpty_iff.mpr hnil)
    obtain ⟨hfraction, hprefix'⟩ := fractionOf_prefix (s.drop (integerOf s).length)
    obtain ⟨hexponent, hprefix''⟩ := exponentOf_prefix
      ((s.drop (integerOf s).length).drop (fractionOf (s.drop (integerOf s).length)).length)
    refine ⟨⟨hwhole ▸ hintegral, _, _, hfraction, hexponent, htail.symm⟩, ?_⟩
    obtain ⟨rest, hrest⟩ := hprefix''
    refine ⟨rest, ?_⟩
    rw [← hwhole, ← htail, List.append_assoc, List.append_assoc, hrest, List.prefix_iff_eq_append.mp hprefix',
      List.prefix_iff_eq_append.mp hprefix]

/-! ## What is taken when more follows -/

theorem naturalOf_append {d s : List Char} (hd : Natural d) (hs : ∀ c ∈ s.head?, isAsciiDigit c = false) :
    naturalOf (d ++ s) = d := by
  cases hd with
  | zero => rfl
  | digits hne hzero hdigits =>
    obtain ⟨c, d, rfl⟩ := List.exists_cons_of_ne_nil hne
    rw [List.cons_append, naturalOf_cons, if_neg fun heq => hzero (congrArg some heq)]
    exact digitsOf_run hdigits hs

theorem exists_digit {d : List Char} (h : Natural d) : ∃ c t, d = c :: t ∧ isAsciiDigit c = true := by
  cases h with
  | zero => exact ⟨_, _, rfl, rfl⟩
  | digits hne _ hdigits =>
    obtain ⟨c, t, rfl⟩ := List.exists_cons_of_ne_nil hne
    exact ⟨c, t, rfl, hdigits c List.mem_cons_self⟩

theorem minusOf_of_digit {c : Char} (h : isAsciiDigit c = true) (s : List Char) : minusOf (c :: s) = [] := by
  rw [minusOf]
  intro t heq
  obtain rfl := (List.cons.inj heq).1
  cases h

theorem integerOf_append {d s : List Char} (hd : Integral d) (hs : ∀ c ∈ s.head?, isAsciiDigit c = false) :
    integerOf (d ++ s) = d := by
  rw [integerOf_eq]
  cases hd with
  | plain hd =>
    have hnatural := naturalOf_append hd hs
    obtain ⟨c, t, rfl, hc⟩ := exists_digit hd
    rw [List.cons_append] at hnatural ⊢
    rw [minusOf_of_digit hc, List.length_nil, List.drop_zero, hnatural, if_neg (List.cons_ne_nil _ _), List.nil_append]
  | @minus d hd =>
    have hnatural := naturalOf_append hd hs
    obtain ⟨c, t, rfl, hc⟩ := exists_digit hd
    have hminus : minusOf ('-' :: (c :: t) ++ s) = ['-'] := rfl
    rw [hminus, List.length_singleton, List.cons_append, List.drop_succ_cons, List.drop_zero, hnatural,
      if_neg (List.cons_ne_nil _ _), List.singleton_append]

theorem fractionOf_append {f s : List Char} (hf : Fraction f)
    (hs : ∀ c ∈ s.head?, isAsciiDigit c = false ∧ c ≠ '.') : fractionOf (f ++ s) = f := by
  cases hf with
  | none =>
    rw [List.nil_append, fractionOf.eq_def]
    split
    · exact absurd rfl (hs _ rfl).2
    · rfl
  | digits hne hd =>
    rw [List.cons_append, fractionOf, digitsOf_run hd fun c hc => (hs c hc).1,
      if_neg fun hempty => hne (List.isEmpty_iff.mp hempty)]

theorem signOf_append {sign d s : List Char} (hsign : sign = [] ∨ sign = ['+'] ∨ sign = ['-']) (hne : d ≠ [])
    (hd : Digits d) : signOf (sign ++ (d ++ s)) = sign := by
  obtain ⟨c, t, rfl⟩ := List.exists_cons_of_ne_nil hne
  have hc : (c == '+' || c == '-') = false := by
    have hdigit := hd c List.mem_cons_self
    rw [Bool.or_eq_false_iff, beq_eq_false_iff_ne, beq_eq_false_iff_ne]
    constructor <;>
      · rintro rfl
        cases hdigit
  rcases hsign with rfl | rfl | rfl <;>
    simp [signOf, hc]

theorem exponentOf_append {e s : List Char} (he : Exponent e)
    (hs : ∀ c ∈ s.head?, isAsciiDigit c = false ∧ c ≠ 'e' ∧ c ≠ 'E') : exponentOf (e ++ s) = e := by
  cases he with
  | none =>
    cases s with
    | nil => rfl
    | cons c s =>
      rw [List.nil_append, exponentOf_cons, if_neg fun h => h.1.elim (hs c rfl).2.1 (hs c rfl).2.2]
  | digits hletter hsign hne hd =>
    rw [List.cons_append, exponentOf_cons, List.append_assoc, signOf_append hsign hne hd, List.drop_left,
      digitsOf_run hd fun c hc => (hs c hc).1, if_pos ⟨hletter, hne⟩]

theorem Exponent.head? {e s : List Char} (he : Exponent e) (hs : Stops s) :
    ∀ c ∈ (e ++ s).head?, isAsciiDigit c = false ∧ c ≠ '.' := by
  cases he with
  | none => exact fun c hc => ⟨(hs c hc).1, (hs c hc).2.1⟩
  | digits hletter _ _ _ =>
    intro c hc
    obtain rfl := Option.some.inj hc
    rcases hletter with rfl | rfl <;> exact ⟨rfl, by decide⟩

theorem Fraction.head? {f s : List Char} (hf : Fraction f) (hs : ∀ c ∈ s.head?, isAsciiDigit c = false) :
    ∀ c ∈ (f ++ s).head?, isAsciiDigit c = false := by
  cases hf with
  | none => exact hs
  | digits _ _ =>
    intro c hc
    obtain rfl := Option.some.inj hc
    rfl

theorem Integral.ne_nil {d : List Char} (h : Integral d) : d ≠ [] := by
  cases h with
  | plain h =>
    obtain ⟨c, t, rfl, -⟩ := exists_digit h
    exact List.cons_ne_nil c t
  | minus => exact List.cons_ne_nil _ _

/-- **A number is read as one** when nothing that goes on with one follows. -/
theorem scanNumber?_append {whole tail s : List Char} (h : Numeral whole tail) (hs : Stops s) :
    scanNumber? (whole ++ tail ++ s) = some (whole, tail) := by
  obtain ⟨hwhole, f, e, hf, he, rfl⟩ := h
  have hinteger : integerOf (whole ++ (f ++ (e ++ s))) = whole :=
    integerOf_append hwhole (hf.head? fun c hc => (he.head? hs c hc).1)
  have hexponent : exponentOf (e ++ s) = e :=
    exponentOf_append he fun c hc => ⟨(hs c hc).1, (hs c hc).2.2.1, (hs c hc).2.2.2.1⟩
  rw [List.append_assoc, List.append_assoc, scanNumber?]
  simp only [hinteger, List.isEmpty_iff, hwhole.ne_nil, if_false, List.drop_left, fractionOf_append hf (he.head? hs),
    hexponent]

/-- A number is written with the characters of numbers and a plus. -/
theorem Numeral.chars {whole tail : List Char} (h : Numeral whole tail) :
    ∀ c ∈ whole ++ tail, Grammar.isNumberChar c = true ∨ c = '+' := by
  have hdigits {d : List Char} (hd : Digits d) : ∀ c ∈ d, Grammar.isNumberChar c = true ∨ c = '+' :=
    fun c hc => .inl (Grammar.isNumberChar_of_isAsciiDigit (hd c hc))
  have hnatural {d : List Char} (hd : Natural d) : Digits d := by
    cases hd with
    | zero => exact List.forall_mem_singleton.mpr rfl
    | digits _ _ hd => exact hd
  obtain ⟨hwhole, f, e, hf, he, rfl⟩ := h
  rw [List.forall_mem_append, List.forall_mem_append]
  refine ⟨?_, ?_, ?_⟩
  · cases hwhole with
    | plain hd => exact hdigits (hnatural hd)
    | minus hd => exact List.forall_mem_cons.mpr ⟨.inl rfl, hdigits (hnatural hd)⟩
  · cases hf with
    | none => exact fun c hc => nomatch hc
    | digits _ hd => exact List.forall_mem_cons.mpr ⟨.inl rfl, hdigits hd⟩
  · cases he with
    | none => exact fun c hc => nomatch hc
    | digits hletter hsign _ hd =>
      refine List.forall_mem_cons.mpr ⟨.inl ?_, List.forall_mem_append.mpr ⟨?_, hdigits hd⟩⟩
      · rcases hletter with rfl | rfl <;> rfl
      · rcases hsign with rfl | rfl | rfl
        · exact fun c hc => nomatch hc
        · exact List.forall_mem_singleton.mpr (.inr rfl)
        · exact List.forall_mem_singleton.mpr (.inl rfl)

/-! ## Numbers of the grammar -/

namespace Grammar

theorem wholeLength_append {d s : List Char} (hd : Natural d) (hs : ∀ c ∈ s.head?, isAsciiDigit c = false) :
    wholeLength (d ++ s) = d.length := by
  cases hd with
  | zero => rfl
  | digits hne hzero hdigits =>
    obtain ⟨c, d, rfl⟩ := List.exists_cons_of_ne_nil hne
    rw [wholeLength, if_neg (by exact hzero), digitsLength, takeWhile_run hdigits hs]

theorem fractionLength_append {f s : List Char} (hf : Fraction f)
    (hs : ∀ c ∈ s.head?, isAsciiDigit c = false ∧ c ≠ '.') : fractionLength (f ++ s) = f.length := by
  cases hf with
  | none =>
    rw [List.nil_append, fractionLength.eq_def]
    split
    · exact absurd rfl (hs _ rfl).2
    · rfl
  | digits hne hd =>
    rw [List.cons_append, fractionLength, digitsLength, takeWhile_run hd fun c hc => (hs c hc).1,
      List.length_cons, Nat.add_comm]

theorem exponentLength_exponent {e : List Char} (he : Exponent e) (hplus : '+' ∉ e) : exponentLength e = e.length := by
  cases he with
  | none => rfl
  | @digits letter sign d hletter hsign hne hd =>
    have hrun : digitsLength d = d.length := by
      rw [digitsLength, List.takeWhile_eq_self_iff.mpr hd]
    have hlen : d.length ≠ 0 := fun h => hne (List.length_eq_zero_iff.mp h)
    have hsigned : signed digitsLength (sign ++ d) = (sign ++ d).length := by
      rcases hsign with rfl | rfl | rfl
      · obtain ⟨c, t, rfl⟩ := List.exists_cons_of_ne_nil hne
        have hminus : minusLength (c :: t) = 0 := by
          refine if_neg fun h => ?_
          obtain rfl := Option.some.inj h
          cases hd _ List.mem_cons_self
        rw [List.nil_append, signed, hminus, List.drop_zero, hrun, if_neg hlen, both, hminus, List.drop_zero, hrun,
          Nat.zero_add]
      · exact absurd (List.mem_cons_of_mem _ List.mem_cons_self) hplus
      · have hminus : minusLength (['-'] ++ d) = 1 := rfl
        rw [signed, both, hminus, List.singleton_append, List.drop_succ_cons, List.drop_zero, hrun, if_neg hlen,
          List.length_cons, Nat.add_comm]
    have hne' : (sign ++ d).length ≠ 0 := by
      rw [List.length_append]
      omega
    rw [exponentLength_cons, hsigned, if_pos ⟨hletter, hne'⟩, List.length_cons, Nat.add_comm]

theorem unsignedLength_numeral {d f e : List Char} (hd : Natural d) (hf : Fraction f) (he : Exponent e)
    (hplus : '+' ∉ e) : unsignedLength (d ++ (f ++ e)) = (d ++ (f ++ e)).length := by
  have hexponent := he.head? stops_nil
  rw [List.append_nil] at hexponent
  have hwhole := wholeLength_append hd (hf.head? fun c hc => (hexponent c hc).1)
  have hne : d.length ≠ 0 := by
    obtain ⟨c, t, rfl, -⟩ := exists_digit hd
    exact Nat.succ_ne_zero _
  rw [unsignedLength, both, both, hwhole, if_neg hne, List.drop_left, fractionLength_append hf hexponent,
    List.drop_left, exponentLength_exponent he hplus, List.length_append, List.length_append]

/-- **A number without a plus is one of the grammar.** -/
theorem numberLength_numeral {whole tail : List Char} (h : Numeral whole tail) (hplus : '+' ∉ tail) :
    numberLength (whole ++ tail) = (whole ++ tail).length := by
  obtain ⟨hwhole, f, e, hf, he, rfl⟩ := h
  have hunsigned {d : List Char} (hd : Natural d) := unsignedLength_numeral hd hf he
    fun hmem => hplus (List.mem_append_right f hmem)
  have hne {d : List Char} (hd : Natural d) : (d ++ (f ++ e)).length ≠ 0 := by
    obtain ⟨c, t, rfl, -⟩ := exists_digit hd
    exact Nat.succ_ne_zero _
  rw [numberLength_eq, signed, both]
  cases hwhole with
  | @plain d hd =>
    have hminus : minusLength (whole ++ (f ++ e)) = 0 := by
      obtain ⟨c, t, rfl, hc⟩ := exists_digit hd
      refine if_neg fun h => ?_
      obtain rfl := Option.some.inj h
      cases hc
    rw [hminus, List.drop_zero, hunsigned hd, if_neg (hne hd), Nat.zero_add]
  | @minus d hd =>
    have hminus : minusLength ('-' :: d ++ (f ++ e)) = 1 := rfl
    rw [hminus, List.cons_append, List.drop_succ_cons, List.drop_zero, hunsigned hd, if_neg (hne hd),
      List.length_cons, Nat.add_comm]

end Grammar

/-! ## Numbers in a text -/

/-- **A number that decodes**, and its value. -/
def Denotes (digits : List Char) (v : Value) : Prop :=
  ∃ whole tail, Numeral whole tail ∧ numberValue whole tail = .ok v ∧ digits = whole ++ tail

theorem Integral.exists_cons {whole : List Char} (h : Integral whole) (s : List Char) :
    ∃ c t, whole ++ s = c :: t ∧ (isAsciiDigit c = true ∨ c = '-' ∧ t.head? ≠ some 'I') := by
  cases h with
  | plain hd =>
    obtain ⟨c, t, rfl, hc⟩ := exists_digit hd
    exact ⟨c, _, rfl, .inl hc⟩
  | minus hd =>
    obtain ⟨c, t, rfl, hc⟩ := exists_digit hd
    refine ⟨'-', _, rfl, .inr ⟨rfl, fun heq => ?_⟩⟩
    obtain rfl := Option.some.inj heq
    cases hc

namespace Denotes

variable {digits : List Char} {v : Value}

theorem readValue_eq (h : Denotes digits v) (depth o : Nat) {s : List Char} (hs : Stops s) :
    readValue depth ⟨o, digits ++ s⟩ = .ok (v, ⟨o + digits.length, s⟩) := by
  obtain ⟨whole, tail, hnumeral, hv, rfl⟩ := h
  have hscan := scanNumber?_append hnumeral hs
  obtain ⟨c, t, hcons, hc⟩ := hnumeral.whole.exists_cons (tail ++ s)
  rw [← List.append_assoc] at hcons
  have hscalar : readScalar ⟨o, whole ++ tail ++ s⟩ = .ok (v, ⟨o + (whole ++ tail).length, s⟩) := by
    rw [readScalar, hcons, word?_eq_none hc, ← hcons]
    simp only [hscan, hv, ← List.length_append, Cursor.drop_append]
  rw [hcons] at hscalar ⊢
  rw [readValue_scalar (ne_of_numberStart (hc.imp_right And.left)), hscalar]

theorem decode_eq [Interpreter] (h : Denotes digits v) (hshaped : (Phrase.number digits).Shaped) :
    decode (String.ofList digits) = .ok v := by
  have hread := h.readValue_eq nestingLimit 0 Grammar.stops_nil
  rw [List.append_nil] at hread
  exact decode_of_readValue (p := .number digits) hshaped hread

/-- **A number decodes in its place** as it does on its own. -/
theorem decodes (h : Denotes digits v) (hshaped : (Phrase.number digits).Shaped) (depth : Nat) :
    Decodes (readValue depth) (.number digits) := by
  intro o s hs
  rw [Phrase.render, h.readValue_eq depth o hs, Phrase.value, numberOf_of_decode hshaped (h.decode_eq hshaped)]

end Denotes

/-- What is read in front of a text as a scalar: a word, or a number that has a value. -/
theorem readScalar_eq_ok {c c' : Cursor} {v : Value} (h : readScalar c = .ok (v, c')) :
    (∃ name ∈ words.map Prod.fst, c.rest = name.toList ++ c'.rest) ∨
      ∃ digits, Denotes digits v ∧ c.rest = digits ++ c'.rest := by
  rw [readScalar] at h
  split at h
  · next found hword =>
    obtain ⟨⟨name, value⟩, hmem, hfound⟩ := List.exists_of_findSome?_eq_some hword
    obtain ⟨after, haccept, rfl⟩ := Option.map_eq_some_iff.mp hfound
    obtain ⟨rfl, rfl⟩ := Prod.mk.inj (Except.ok.inj h)
    exact .inl ⟨name, List.mem_map_of_mem hmem, (Grammar.rest_of_accept? haccept).1⟩
  · split at h
    · next whole tail hscan =>
      obtain ⟨hnumeral, rest, hrest⟩ := numeral_of_scanNumber? hscan
      split at h
      · next value hvalue =>
        obtain ⟨rfl, rfl⟩ := Prod.mk.inj (Except.ok.inj h)
        refine .inr ⟨whole ++ tail, ⟨whole, tail, hnumeral, hvalue, rfl⟩, ?_⟩
        rw [Cursor.drop, ← List.length_append, hrest, List.drop_left]
      · cases h
    · cases h

/-- **A number of the grammar that decodes** is one in its place. -/
theorem denotes_of_decode [Interpreter] {digits : List Char} {v : Value} (hshaped : (Phrase.number digits).Shaped)
    (h : decode (String.ofList digits) = .ok v) : Denotes digits v := by
  have hchars := Grammar.isNumberChar_of_mem hshaped
  obtain ⟨c, s, rfl⟩ := List.exists_cons_of_ne_nil (Grammar.render_ne_nil hshaped)
  have hstart : isAsciiDigit c = true ∨ c = '-' := by
    cases hshaped with
    | number hne hlen => exact (Grammar.isOpening_of_numberLength (by rw [hlen]; exact Nat.succ_ne_zero _)).symm
  obtain ⟨after, hread, hspaces⟩ := exists_readValue_of_decode hshaped h
  rw [Phrase.render, readValue_scalar (ne_of_numberStart hstart)] at hread
  rcases readScalar_eq_ok hread with ⟨name, hname, hrest⟩ | ⟨digits, hdigits, hrest⟩
  · have hword : ((words.map Prod.fst).all fun n => n.toList.any fun d => !Grammar.isNumberChar d) = true := rfl
    obtain ⟨d, hd, hnot⟩ := List.any_eq_true.mp (List.all_eq_true.mp hword name hname)
    have hmem : d ∈ c :: s := by
      change c :: s = _ at hrest
      rw [hrest]
      exact List.mem_append_left _ hd
    rw [hchars d hmem] at hnot
    cases hnot
  · -- What is left over would be white space, and no number holds any.
    change c :: s = _ at hrest
    have hnil : after.rest = [] := by
      refine List.eq_nil_iff_forall_not_mem.mpr fun d hd => ?_
      have hspace := hspaces d hd
      have hnumber := hchars d (hrest ▸ List.mem_append_right digits hd)
      simp only [isSpace, Bool.or_eq_true, beq_iff_eq] at hspace
      rcases hspace with ((rfl | rfl) | rfl) | rfl <;> cases hnumber
    rw [hnil, List.append_nil] at hrest
    exact hrest ▸ hdigits

end SlotEdit.Json
