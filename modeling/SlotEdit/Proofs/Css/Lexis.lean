import SlotEdit.Css.Extent

/-!
# Proofs/Css/Lexis — lexemes end in front of a delimiter

What stands behind a delimiter (`Stops`) does not change how far a word, a number or a colour reaches:
each takes as much of `p ++ s` as it takes of `p`.  A name may take a delimiter after a backslash; it
reaches as far in one text as in another as long as it ends in front of the point where the two part.
-/

namespace SlotEdit.Css

/-- **The text ends here, or a delimiter follows.** -/
def Stops (s : List Char) : Prop := ∀ x ∈ s.head?, isDelimiter x = true

variable {p s s' t t' : List Char} {c x m : Char} {n : Nat}

theorem stops_nil : Stops [] := fun _ h => nomatch h

theorem stops_cons (h : isDelimiter c = true) : Stops (c :: s) := fun _ hx => Option.mem_some.mp hx ▸ h

/-! ## Delimiters -/

theorem toNat_of_isDelimiter (h : isDelimiter c = true) :
    c.toNat = 32 ∨ (9 ≤ c.toNat ∧ c.toNat ≤ 13) ∨ c.toNat ∈ [33, 40, 41, 44, 59, 91, 93, 123, 125] := by
  simp only [isDelimiter, isAsciiBlank, Bool.or_eq_true, Bool.and_eq_true, beq_iff_eq, decide_eq_true_eq,
    List.mem_cons, List.not_mem_nil, or_false] at h
  obtain (rfl | h) | h := h
  · exact .inl rfl
  · exact .inr (.inl h)
  · refine .inr (.inr ?_)
    obtain rfl | rfl | rfl | rfl | rfl | rfl | rfl | rfl | rfl := h <;> decide

theorem isAsciiLetter_eq_false (h : isDelimiter c = true) : isAsciiLetter c = false := by
  have hn := toNat_of_isDelimiter h
  simp only [List.mem_cons, List.not_mem_nil, or_false] at hn
  simp only [isAsciiLetter, Char.le_def, UInt32.le_iff_toNat_le, decide_eq_false_iff_not]
  change ¬((97 ≤ c.toNat ∧ c.toNat ≤ 122) ∨ (65 ≤ c.toNat ∧ c.toNat ≤ 90))
  omega

theorem isAsciiDigit_eq_false (h : isDelimiter c = true) : isAsciiDigit c = false := by
  have hn := toNat_of_isDelimiter h
  simp only [List.mem_cons, List.not_mem_nil, or_false] at hn
  simp only [isAsciiDigit, Char.le_def, UInt32.le_iff_toNat_le, decide_eq_false_iff_not]
  change ¬(48 ≤ c.toNat ∧ c.toNat ≤ 57)
  omega

theorem isHexDigit_eq_false (h : isDelimiter c = true) : isHexDigit c = false := by
  have hn := toNat_of_isDelimiter h
  simp only [List.mem_cons, List.not_mem_nil, or_false] at hn
  rw [isHexDigit, hexValue?, isAsciiDigit_eq_false h, if_neg Bool.false_ne_true, if_neg, if_neg]
  · rfl
  all_goals
    simp only [Char.le_def, UInt32.le_iff_toNat_le]
  · change ¬(65 ≤ c.toNat ∧ c.toNat ≤ 70)
    omega
  · change ¬(97 ≤ c.toNat ∧ c.toNat ≤ 102)
    omega

/-- A delimiter is none of some other characters. -/
theorem ne_of_isDelimiter (h : isDelimiter c = true) (hx : isDelimiter x = false) : c ≠ x :=
  fun heq => Bool.false_ne_true (hx.symm.trans (heq ▸ h))

theorem isIdentChar_eq_false (h : isDelimiter c = true) : isIdentChar c = false := by
  have hn := toNat_of_isDelimiter h
  simp only [List.mem_cons, List.not_mem_nil, or_false] at hn
  rw [isIdentChar, isIdentStart, isAsciiLetter_eq_false h, isAsciiDigit_eq_false h]
  simp only [Bool.false_or, Bool.or_false, Bool.or_eq_false_iff, Bool.and_eq_false_iff, decide_eq_false_iff_not,
    beq_eq_false_iff_ne]
  refine ⟨⟨ne_of_isDelimiter h rfl, ?_⟩, ne_of_isDelimiter h rfl⟩
  omega

theorem isIdentStart_eq_false_of_isIdentChar (h : isIdentChar c = false) : isIdentStart c = false := by
  rw [isIdentChar, Bool.or_eq_false_iff, Bool.or_eq_false_iff] at h
  exact h.1.1

/-! ## Words, numbers and colours -/

/-- What a class takes of a text does not depend on what follows, if that starts with none of the class. -/
theorem takeWhile_append_of_head? {f : Char → Bool} (hs : ∀ x ∈ s.head?, f x = false) :
    (p ++ s).takeWhile f = p.takeWhile f := by
  induction p with
  | nil =>
    cases s with
    | nil => rfl
    | cons x s => simp [hs x rfl]
  | cons c p ih => simp only [List.cons_append, List.takeWhile_cons, ih]

theorem takeWhile_append_stops {f : Char → Bool} (hf : ∀ x, isDelimiter x = true → f x = false) (hs : Stops s) :
    (p ++ s).takeWhile f = p.takeWhile f :=
  takeWhile_append_of_head? fun x hx => hf x (hs x hx)

theorem wordTail_cons (hc : c ≠ '/') : wordTail (c :: s) = if isDelimiter c then 0 else 1 + wordTail s := by
  rw [wordTail.eq_2 c s fun _ _ heq => absurd heq hc]
  simp only [hc, false_or]

example : wordLength "-a/b c".toList = 4 := by cbv

theorem wordTail_slash_of_stops (hs : Stops s) : wordTail ('/' :: s) = 0 := by
  cases s with
  | nil => rfl
  | cons x s => rw [wordTail, if_pos (.inr (hs x rfl))]

theorem wordTail_of_stops (hs : Stops s) : wordTail s = 0 := by
  cases s with
  | nil => rfl
  | cons x s => rw [wordTail_cons (ne_of_isDelimiter (hs x rfl) rfl), if_pos (hs x rfl)]

theorem wordTail_append (hs : Stops s) : wordTail (p ++ s) = wordTail p := by
  fun_induction wordTail p with
  | case1 c rest h => rw [List.cons_append, List.cons_append, wordTail, if_pos h]
  | case2 c rest h ih => rw [List.cons_append, List.cons_append, wordTail, if_neg h, ih]
  | case3 c rest hne h =>
    by_cases hc : c = '/'
    · cases rest with
      | nil => exact hc ▸ wordTail_slash_of_stops hs
      | cons d rest => exact absurd rfl (hne d rest hc)
    · rw [List.cons_append, wordTail_cons hc, if_pos (h.resolve_left hc)]
  | case4 c rest hne h ih =>
    obtain ⟨hc, hd⟩ := not_or.mp h
    rw [List.cons_append, wordTail_cons hc, if_neg hd, ih]
  | case5 => exact wordTail_of_stops hs

theorem wordTail_le (s : List Char) : wordTail s ≤ s.length := by
  fun_induction wordTail s <;> simp only [List.length_cons, List.length_nil] <;> omega

theorem wordLength_cons (hc : c ≠ '/') : wordLength (c :: s) =
    if isAsciiLetter c then 1 + wordTail s
    else if c = '-' ∨ c = '_' then match wordLength s with
      | 0 => 0
      | n => n + 1
    else 0 :=
  wordLength.eq_2 c s fun _ _ heq => absurd heq hc

theorem wordLength_slash_of_stops (hs : Stops s) : wordLength ('/' :: s) = 0 := by
  cases s with
  | nil => rfl
  | cons x s => rw [wordLength, if_pos (.inr (hs x rfl))]

theorem wordLength_of_stops (hs : Stops s) : wordLength s = 0 := by
  cases s with
  | nil => rfl
  | cons x s =>
    have hx := hs x rfl
    rw [wordLength_cons (ne_of_isDelimiter hx rfl), isAsciiLetter_eq_false hx, if_neg Bool.false_ne_true, if_neg]
    exact not_or.mpr ⟨ne_of_isDelimiter hx rfl, ne_of_isDelimiter hx rfl⟩

theorem wordLength_append (hs : Stops s) : (p : List Char) → wordLength (p ++ s) = wordLength p
  | [] => wordLength_of_stops hs
  | [c] => by
    by_cases hc : c = '/'
    · exact hc ▸ wordLength_slash_of_stops hs
    · rw [List.cons_append, wordLength_cons hc, wordLength_cons hc, wordTail_append hs, wordLength_append hs []]
  | c :: d :: p => by
    by_cases hc : c = '/'
    · subst hc
      rw [List.cons_append, List.cons_append, wordLength, wordLength, wordLength_append hs p]
    · rw [List.cons_append, wordLength_cons hc, wordLength_cons hc, wordTail_append hs,
        wordLength_append hs (d :: p)]

theorem wordLength_le (s : List Char) : wordLength s ≤ s.length := by
  fun_induction wordLength s with
  | case4 c rest => have := wordTail_le rest; simp only [List.length_cons]; omega
  | _ => simp only [List.length_cons, List.length_nil]; omega

theorem signLength_append (hs : Stops s) : signLength (p ++ s) = signLength p := by
  cases p with
  | nil =>
    cases s with
    | nil => rfl
    | cons x s =>
      have hx := hs x rfl
      exact if_neg (not_or.mpr ⟨ne_of_isDelimiter hx rfl, ne_of_isDelimiter hx rfl⟩)
  | cons c p => rfl

theorem signLength_le (s : List Char) : signLength s ≤ s.length := by
  cases s with
  | nil => exact Nat.le_refl 0
  | cons c s => rw [signLength, List.length_cons]; split <;> omega

theorem digitsLength_append (hs : Stops s) : digitsLength (p ++ s) = digitsLength p := by
  rw [digitsLength, takeWhile_append_stops (fun _ => isAsciiDigit_eq_false) hs, digitsLength]

theorem digitsLength_le (s : List Char) : digitsLength s ≤ s.length := (List.takeWhile_sublist _).length_le

theorem unitLength_append (hs : Stops s) : unitLength (p ++ s) = unitLength p := by
  rw [unitLength, takeWhile_append_stops _ hs, unitLength]
  intro x hx
  rw [isAsciiLetter_eq_false hx, Bool.false_or]
  exact beq_eq_false_iff_ne.mpr (ne_of_isDelimiter hx rfl)

theorem unitLength_le (s : List Char) : unitLength s ≤ s.length := (List.takeWhile_sublist _).length_le

/-- What is dropped of a text stays in front of what follows it. -/
theorem drop_append_of_le (h : n ≤ p.length) : (p ++ s).drop n = p.drop n ++ s := List.drop_append_of_le_length h

/-- The next character stands in front, unless the text behind starts with it. -/
theorem head?_append_iff_of_ne (hs : s.head? ≠ some x) : (p ++ s).head? = some x ↔ p.head? = some x := by
  cases p with
  | nil => exact ⟨fun h => absurd h hs, fun h => nomatch h⟩
  | cons c p => rfl

/-- The next character, unless it is a delimiter, stands in front. -/
theorem head?_append_eq_some_iff (hs : Stops s) (hx : isDelimiter x = false) :
    (p ++ s).head? = some x ↔ p.head? = some x :=
  head?_append_iff_of_ne fun h => absurd (hs x h) (Bool.eq_false_iff.mp hx)

theorem hyphen_le (s : List Char) : (if s.head? = some '-' then 1 else 0) ≤ s.length := by
  cases s with
  | nil => exact Nat.le_refl 0
  | cons => rw [List.length_cons]; split <;> omega

theorem exponentLength_append (hs : Stops s) : exponentLength (p ++ s) = exponentLength p := by
  cases p with
  | nil =>
    cases s with
    | nil => rfl
    | cons x s =>
      have hx := hs x rfl
      exact if_neg (not_or.mpr ⟨ne_of_isDelimiter hx rfl, ne_of_isDelimiter hx rfl⟩)
  | cons c p =>
    rw [List.cons_append, exponentLength, exponentLength]
    simp only [head?_append_eq_some_iff hs (x := '-') rfl, drop_append_of_le (hyphen_le p), digitsLength_append hs]

theorem integerLength_append (hs : Stops s) : integerLength (p ++ s) = integerLength p := by
  rw [integerLength, integerLength, signLength_append hs, drop_append_of_le (signLength_le p),
    digitsLength_append hs]

/-- How many characters a fraction takes: a point and the digits behind it. -/
def fractionLength (s : List Char) : Nat :=
  match s with
  | '.' :: rest => match digitsLength rest with
    | 0 => 0
    | n => n + 1
  | _ => 0

theorem numberLength_eq (s : List Char) : numberLength s =
    let s₁ := s.drop (signLength s)
    let s₂ := s₁.drop (digitsLength s₁)
    if digitsLength s₁ = 0 ∧ fractionLength s₂ = 0 then 0
    else signLength s + digitsLength s₁ + fractionLength s₂ + exponentLength (s₂.drop (fractionLength s₂)) := rfl

theorem fractionLength_of_head? (h : s.head? ≠ some '.') : fractionLength s = 0 := by
  fun_cases fractionLength s with
  | case3 => rfl
  | _ => exact absurd rfl h

theorem fractionLength_append (hs : Stops s) : fractionLength (p ++ s) = fractionLength p := by
  by_cases h : p.head? = some '.'
  · obtain ⟨p, rfl⟩ := List.head?_eq_some_iff.mp h
    rw [List.cons_append, fractionLength, fractionLength, digitsLength_append hs]
  · rw [fractionLength_of_head? h, fractionLength_of_head?]
    exact fun hne => h ((head?_append_eq_some_iff hs rfl).mp hne)

theorem fractionLength_le (s : List Char) : fractionLength s ≤ s.length := by
  fun_cases fractionLength s with
  | case2 rest =>
    have := digitsLength_le rest
    rw [List.length_cons]
    omega
  | _ => exact Nat.zero_le _

theorem numberLength_append (hs : Stops s) : numberLength (p ++ s) = numberLength p := by
  simp only [numberLength_eq, signLength_append hs, drop_append_of_le (signLength_le _), digitsLength_append hs,
    drop_append_of_le (digitsLength_le _), fractionLength_append hs, drop_append_of_le (fractionLength_le _),
    exponentLength_append hs]

theorem exponentLength_le (s : List Char) : exponentLength s ≤ s.length := by
  cases s with
  | nil => exact Nat.le_refl 0
  | cons c rest =>
    have hsign := hyphen_le rest
    have hle := digitsLength_le (rest.drop (if rest.head? = some '-' then 1 else 0))
    rw [List.length_drop] at hle
    rw [exponentLength, List.length_cons]
    split
    · simp only
      split <;> omega
    · omega

theorem integerLength_le (s : List Char) : integerLength s ≤ s.length := by
  have hsign := signLength_le s
  have hle := digitsLength_le (s.drop (signLength s))
  rw [List.length_drop] at hle
  rw [integerLength]
  split <;> omega

theorem numberLength_le (s : List Char) : numberLength s ≤ s.length := by
  have h₁ := signLength_le s
  have h₂ := digitsLength_le (s.drop (signLength s))
  have h₃ := fractionLength_le ((s.drop (signLength s)).drop (digitsLength (s.drop (signLength s))))
  rw [numberLength_eq]
  simp only
  split
  · exact Nat.zero_le _
  · have h₄ := exponentLength_le (((s.drop (signLength s)).drop (digitsLength (s.drop (signLength s)))).drop
      (fractionLength ((s.drop (signLength s)).drop (digitsLength (s.drop (signLength s))))))
    simp only [List.length_drop] at h₂ h₃ h₄
    omega

/-- As `takeWhile_append_of_head?`, where only some characters are looked at. -/
theorem takeWhile_take_append_of_head? {f : Char → Bool} (hs : ∀ x ∈ s.head?, f x = false) (n : Nat) :
    ((p ++ s).take n).takeWhile f = (p.take n).takeWhile f := by
  rw [List.take_append]
  refine takeWhile_append_of_head? fun x hx => hs x ?_
  generalize n - p.length = k at hx
  cases k with
  | zero => cases hx
  | succ k => rwa [List.head?_take, if_neg (Nat.succ_ne_zero k)] at hx

theorem takeWhile_take_append_stops {f : Char → Bool} (hf : ∀ x, isDelimiter x = true → f x = false) (hs : Stops s)
    (n : Nat) : ((p ++ s).take n).takeWhile f = (p.take n).takeWhile f :=
  takeWhile_take_append_of_head? (fun x hx => hf x (hs x hx)) n

theorem colorLength_append (hs : Stops s) : colorLength (p ++ s) = colorLength p := by
  by_cases h : p.head? = some '#'
  · obtain ⟨p, rfl⟩ := List.head?_eq_some_iff.mp h
    rw [List.cons_append, colorLength, colorLength,
      takeWhile_take_append_stops (fun _ => isHexDigit_eq_false) hs]
  · have hne : ∀ {s : List Char}, s.head? ≠ some '#' → colorLength s = 0 := by
      intro s hs
      fun_cases colorLength s with
      | case3 => rfl
      | _ => exact absurd rfl hs
    rw [hne h, hne fun heq => h ((head?_append_eq_some_iff hs rfl).mp heq)]

theorem colorLength_le (s : List Char) : colorLength s ≤ s.length := by
  fun_cases colorLength s with
  | case2 rest n =>
    have hle : n ≤ rest.length := ((List.takeWhile_sublist _).trans (List.take_sublist 8 rest)).length_le
    rw [List.length_cons]
    omega
  | _ => exact Nat.zero_le _

/-! ## Names -/

/-- **The text ends here, or a character follows that no name holds.** -/
def EndsName (s : List Char) : Prop := ∀ x ∈ s.head?, isIdentChar x = false ∧ x ≠ '\\'

theorem Stops.endsName (h : Stops s) : EndsName s := fun x hx =>
  ⟨isIdentChar_eq_false (h x hx), ne_of_isDelimiter (h x hx) rfl⟩

/-- Names hold all hexadecimal digits. -/
theorem isHexDigit_of_isIdentChar_eq_false (h : isIdentChar c = false) : isHexDigit c = false := by
  have hletter : isAsciiLetter c = false ∧ isAsciiDigit c = false := by
    simp only [isIdentChar, isIdentStart, Bool.or_eq_false_iff] at h
    exact ⟨h.1.1.1.1, h.1.2⟩
  rw [isHexDigit, hexValue?, hletter.2, if_neg Bool.false_ne_true]
  have hnot := hletter.1
  simp only [isAsciiLetter, decide_eq_false_iff_not, Char.le_def, UInt32.le_iff_toNat_le] at hnot
  rw [if_neg, if_neg]
  · rfl
  all_goals
    simp only [Char.le_def, UInt32.le_iff_toNat_le]
    intro hle
    refine hnot ?_
    simp at hle ⊢
    omega

theorem EndsName.head?_ne (h : EndsName s) (hx : isIdentChar x = true ∨ x = '\\') : s.head? ≠ some x := fun hs =>
  hx.elim (fun hx => absurd hx (Bool.eq_false_iff.mp (h x hs).1)) (h x hs).2

/-- Two texts go on alike as far as names are concerned: with the same character, or behind a text
without a backslash. -/
def Alike (p s s' : List Char) : Prop := s.head? = s'.head? ∨ '\\' ∉ p

theorem Alike.of_suffix {q : List Char} (h : Alike p s s') (hq : q <:+ p) : Alike q s s' :=
  h.imp_right fun hp hmem => hp (hq.mem hmem)

theorem escapeLength_of_head? (h : s.head? ≠ some '\\') : escapeLength s = 0 := by
  fun_cases escapeLength s with
  | case5 => rfl
  | _ => exact absurd rfl h

/-- The next character is the same in texts that go on with the same delimiter. -/
theorem head?_append_congr (h : s.head? = s'.head?) : (p ++ s).head? = (p ++ s').head? := by
  cases p with
  | nil => exact h
  | cons => rfl

theorem escapeLength_append (hs : EndsName s) (hs' : EndsName s') (ha : Alike p s s') :
    escapeLength (p ++ s') = escapeLength (p ++ s) := by
  by_cases hp : p.head? = some '\\'
  · obtain ⟨p, rfl⟩ := List.head?_eq_some_iff.mp hp
    have hhead := ha.resolve_right fun h => h List.mem_cons_self
    have hdigits {s : List Char} (hs : EndsName s) := takeWhile_take_append_of_head?
      (p := p) (fun x hx => isHexDigit_of_isIdentChar_eq_false (hs x hx).1) 6
    have hle : ((p.take 6).takeWhile isHexDigit).length ≤ p.length :=
      ((List.takeWhile_sublist _).trans (List.take_sublist 6 p)).length_le
    simp only [List.cons_append, escapeLength, hdigits hs, hdigits hs', drop_append_of_le hle,
      head?_append_congr hhead]
    -- only an escape that is no digits asks for the character right behind the backslash
    cases p with
    | cons => rfl
    | nil =>
      cases s with
      | nil => rw [List.head?_eq_none_iff.mp hhead.symm]
      | cons x s =>
        obtain ⟨t, rfl⟩ := List.head?_eq_some_iff.mp hhead.symm
        rfl
  · rw [escapeLength_of_head? fun h => hp ((head?_append_iff_of_ne (hs.head?_ne (by decide))).mp h),
      escapeLength_of_head? fun h => hp ((head?_append_iff_of_ne (hs'.head?_ne (by decide))).mp h)]

theorem identTail_cons (c : Char) (s : List Char) : identTail (c :: s) =
    if isIdentChar c then 1 + identTail s
    else match escapeLength (c :: s) with
      | 0 => 0
      | n + 1 => n + 1 + identTail (s.drop n) := by
  exact identTail.eq_2 c s

theorem escapeLength_of_endsName (hs : EndsName s) : escapeLength s = 0 :=
  escapeLength_of_head? fun h => (hs '\\' h).2 rfl

theorem identTail_of_endsName (hs : EndsName s) : identTail s = 0 := by
  cases s with
  | nil => rw [identTail]
  | cons x t => rw [identTail_cons, (hs x rfl).1, if_neg Bool.false_ne_true, escapeLength_of_endsName hs]

/-- **A name ends where it ended** if that is in front of the delimiter. -/
theorem identTail_append (hs : EndsName s) (hs' : EndsName s') (ha : Alike p s s')
    (h : identTail (p ++ s) ≤ p.length) : identTail (p ++ s') = identTail (p ++ s) := by
  induction hn : p.length using Nat.strongRecOn generalizing p with
  | ind n ih =>
    cases p with
    | nil => exact (identTail_of_endsName hs').trans (identTail_of_endsName hs).symm
    | cons c p =>
      subst hn
      have hescape : escapeLength (c :: (p ++ s')) = escapeLength (c :: (p ++ s)) := escapeLength_append hs hs' ha
      rw [List.cons_append, identTail_cons] at h
      rw [List.cons_append, List.cons_append, identTail_cons, identTail_cons, hescape]
      split
      · next hc =>
        rw [if_pos hc, List.length_cons] at h
        rw [ih p.length (Nat.lt_succ_self _) (ha.of_suffix (List.suffix_cons c p)) (by omega) rfl]
      · next hc =>
        rw [if_neg hc] at h
        generalize escapeLength (c :: (p ++ s)) = length at h
        cases length with
        | zero => rfl
        | succ n =>
          have hle : n ≤ p.length := by simp only [List.length_cons] at h; omega
          have hdrop : (p.drop n).length = p.length - n := List.length_drop
          simp only [drop_append_of_le hle, List.length_cons] at h ⊢
          rw [ih (p.drop n).length (by rw [List.length_cons]; omega)
            (ha.of_suffix ((List.drop_suffix n p).trans (List.suffix_cons c p))) (by omega) rfl]

theorem identHead_of_endsName (hs : EndsName s) : identHead s = 0 := by
  cases s with
  | nil => rfl
  | cons x t => rw [identHead, isIdentStart_eq_false_of_isIdentChar (hs x rfl).1, if_neg Bool.false_ne_true,
      escapeLength_of_endsName hs]

theorem identHead_append (hs : EndsName s) (hs' : EndsName s') (ha : Alike p s s') :
    identHead (p ++ s') = identHead (p ++ s) := by
  cases p with
  | nil => exact (identHead_of_endsName hs').trans (identHead_of_endsName hs).symm
  | cons c p =>
    have hescape := escapeLength_append hs hs' ha
    simp only [List.cons_append, identHead] at hescape ⊢
    rw [hescape]

theorem escapeLength_le (s : List Char) : escapeLength s ≤ s.length := by
  fun_cases escapeLength s with
  | case4 rest digits hdigits =>
    have hle : digits ≤ rest.length := ((List.takeWhile_sublist _).trans (List.take_sublist 6 rest)).length_le
    have hblank : (if ((rest.drop digits).head?.map isAsciiBlank).getD false then 1 else 0) ≤ rest.length - digits := by
      rw [← List.length_drop]
      cases rest.drop digits with
      | nil => exact Nat.le_refl 0
      | cons => rw [List.length_cons]; split <;> omega
    simp only [List.length_cons]
    omega
  | _ => simp

theorem identTail_le (s : List Char) : identTail s ≤ s.length := by
  fun_induction identTail s with
  | case4 c rest _ n he ih =>
    have hle := escapeLength_le (c :: rest)
    rw [List.length_drop] at ih
    simp only [List.length_cons] at hle ⊢
    omega
  | _ => simp only [List.length_cons, List.length_nil]; omega

theorem identHead_le (s : List Char) : identHead s ≤ s.length := by
  cases s with
  | nil => exact Nat.le_refl 0
  | cons c s =>
    have hle := escapeLength_le (c :: s)
    rw [identHead]
    split
    · rw [List.length_cons]; omega
    · exact hle

/-- How many characters a name takes that no hyphen leads. -/
def plainIdentLength (s : List Char) : Nat :=
  match identHead s with
  | 0 => 0
  | n => n + identTail (s.drop n)

theorem plainIdentLength_append (hs : EndsName s) (hs' : EndsName s') (ha : Alike p s s')
    (h : plainIdentLength (p ++ s) ≤ p.length) : plainIdentLength (p ++ s') = plainIdentLength (p ++ s) := by
  rw [plainIdentLength] at h ⊢
  rw [identHead_append hs hs' ha, plainIdentLength]
  cases hn : identHead (p ++ s) with
  | zero => rfl
  | succ n =>
    rw [hn] at h
    have hle : n + 1 ≤ p.length := by simp only at h; omega
    simp only [drop_append_of_le hle] at h ⊢
    rw [identTail_append hs hs' (ha.of_suffix (List.drop_suffix _ p)) (by rw [List.length_drop]; omega)]

theorem plainIdentLength_le (s : List Char) : plainIdentLength s ≤ s.length := by
  have hhead := identHead_le s
  have htail := identTail_le (s.drop (identHead s))
  rw [List.length_drop] at htail
  rw [plainIdentLength]
  split <;> omega

theorem identLength_hyphen (h : s.head? ≠ some '-') : identLength ('-' :: s) =
    match plainIdentLength s with
    | 0 => 0
    | n => 1 + n := by
  rw [identLength.eq_2 s fun rest heq => h (heq ▸ rfl), plainIdentLength]
  cases identHead s with
  | zero => rfl
  | succ n =>
    simp only
    cases hk : n + 1 + identTail (s.drop (n + 1)) with
    | zero => omega
    | succ k =>
      show 1 + (n + 1) + identTail (s.drop (n + 1)) = 1 + (k + 1)
      omega

theorem identLength_of_head? (h : s.head? ≠ some '-') : identLength s = plainIdentLength s :=
  identLength.eq_3 s (fun _ heq => h (heq ▸ rfl)) fun _ heq => h (heq ▸ rfl)

theorem identLength_le (s : List Char) : identLength s ≤ s.length := by
  by_cases hp : s.head? = some '-'
  · obtain ⟨s, rfl⟩ := List.head?_eq_some_iff.mp hp
    by_cases hp : s.head? = some '-'
    · obtain ⟨s, rfl⟩ := List.head?_eq_some_iff.mp hp
      have hle := identTail_le s
      simp only [identLength, List.length_cons]
      omega
    · have hle := plainIdentLength_le s
      rw [identLength_hyphen hp, List.length_cons]
      cases hn : plainIdentLength s with
      | zero => exact Nat.zero_le _
      | succ n =>
        show 1 + (n + 1) ≤ s.length + 1
        omega
  · exact identLength_of_head? hp ▸ plainIdentLength_le s

theorem identLength_append (hs : EndsName s) (hs' : EndsName s') (ha : Alike p s s')
    (h : identLength (p ++ s) ≤ p.length) : identLength (p ++ s') = identLength (p ++ s) := by
  by_cases hp : p.head? = some '-'
  · obtain ⟨p, rfl⟩ := List.head?_eq_some_iff.mp hp
    have ha := ha.of_suffix (List.suffix_cons '-' p)
    by_cases hp : p.head? = some '-'
    · obtain ⟨p, rfl⟩ := List.head?_eq_some_iff.mp hp
      simp only [List.cons_append, identLength, List.length_cons] at h ⊢
      rw [identTail_append hs hs' (ha.of_suffix (List.suffix_cons '-' p)) (by omega)]
    · have hne := fun heq => hp ((head?_append_iff_of_ne (hs.head?_ne (by decide))).mp heq)
      have hne' := fun heq => hp ((head?_append_iff_of_ne (hs'.head?_ne (by decide))).mp heq)
      rw [List.cons_append, identLength_hyphen hne, List.length_cons] at h
      rw [List.cons_append, List.cons_append, identLength_hyphen hne, identLength_hyphen hne',
        plainIdentLength_append hs hs' ha]
      cases hn : plainIdentLength (p ++ s) with
      | zero => exact Nat.zero_le _
      | succ n =>
        rw [hn] at h
        have h : 1 + (n + 1) ≤ p.length + 1 := h
        omega
  · have hne := fun heq => hp ((head?_append_iff_of_ne (hs.head?_ne (by decide))).mp heq)
    rw [identLength_of_head? hne] at h
    rw [identLength_of_head? hne, identLength_of_head? fun heq => hp ((head?_append_iff_of_ne (hs'.head?_ne (by decide))).mp heq),
      plainIdentLength_append hs hs' ha h]

/-! ## Comments -/

theorem blockEnd?_le (h : blockEnd? s = some n) : n ≤ s.length := by
  fun_induction blockEnd? s generalizing n <;> grind [Option.map_eq_some_iff]

end SlotEdit.Css
