import Mathlib.Data.List.TakeWhile
import SlotEdit.Json.Grammar
import SlotEdit.Proofs.Json.Phrase
import SlotEdit.Proofs.Text.Runs

/-!
# Proofs/Json/Literals — cutting literals and blanks out of a text

How many characters a blank, a string or a number takes does not depend on what follows it, once
that cannot go on with it (`Quiet`, `Stops`); and what was cut out is a literal on its own.
-/

namespace SlotEdit

namespace Cursor

theorem drop_append (o : Nat) (a r : List Char) :
    (⟨o, a ++ r⟩ : Cursor).drop a.length = ⟨o + a.length, r⟩ := by
  rw [drop, List.drop_left, List.length_append, Nat.min_eq_left (Nat.le_add_right _ _)]

theorem drop_one (o : Nat) (c : Char) (r : List Char) : (⟨o, c :: r⟩ : Cursor).drop 1 = ⟨o + 1, r⟩ :=
  drop_append o [c] r

theorem skipWhile_append {p : Char → Bool} {a r : List Char} (o : Nat) (ha : ∀ c ∈ a, p c = true)
    (hr : ∀ c ∈ r.head?, p c = false) : (⟨o, a ++ r⟩ : Cursor).skipWhile p = ⟨o + a.length, r⟩ := by
  have hr' : r.takeWhile p = [] := by
    cases r with
    | nil => rfl
    | cons c r => rw [List.takeWhile_cons_of_neg]; simp [hr c rfl]
  rw [skipWhile, List.takeWhile_append_of_pos ha, List.dropWhile_append_of_pos ha, hr', List.append_nil]
  have := List.takeWhile_append_dropWhile (p := p) (l := r)
  rw [hr', List.nil_append] at this
  rw [this]

theorem accept?_append (o : Nat) (name : String) (s : List Char) :
    (⟨o, name.toList ++ s⟩ : Cursor).accept? name = some ⟨o + name.toList.length, s⟩ := by
  have hprefix : (⟨o, name.toList ++ s⟩ : Cursor).startsWith name = true :=
    List.isPrefixOf_iff_prefix.mpr (List.prefix_append _ _)
  rw [accept?, if_pos hprefix, ← String.length_toList, drop_append]

theorem accept?_eq_none {name : String} {d : Char} {t : List Char} (hname : name.toList = d :: t)
    {c : Char} (h : c ≠ d) (o : Nat) (s : List Char) : (⟨o, c :: s⟩ : Cursor).accept? name = none := by
  refine if_neg fun hprefix => ?_
  rw [startsWith, hname, List.isPrefixOf_cons_cons, Bool.and_eq_true, beq_iff_eq] at hprefix
  exact h hprefix.1.symm

end Cursor

namespace Json

/-- What follows starts with no blank and no comment. -/
def Quiet (s : List Char) : Prop := ∀ c ∈ s.head?, isAsciiBlank c = false ∧ c ≠ '/'

/-- What follows does not go on with a number. -/
def Stops (s : List Char) : Prop :=
  ∀ c ∈ s.head?, isAsciiDigit c = false ∧ c ≠ '.' ∧ c ≠ 'e' ∧ c ≠ 'E' ∧ c ≠ '-'

namespace Grammar

/-! ## Blanks -/

theorem comment?_eq_none {c : Cursor} (h : Quiet c.rest) : comment? c = none := by
  obtain ⟨o, s⟩ := c
  cases s with
  | nil => rfl
  | cons d s =>
    have hd := (h d rfl).2
    rw [comment?]
    split
    · next heq => exact absurd (List.cons.inj heq).1 hd
    · next heq => exact absurd (List.cons.inj heq).1 hd
    · rfl

theorem extras_blank {ws r : List Char} (turns o : Nat) (hws : Blank ws) (hr : Quiet r) :
    extras turns ⟨o, ws ++ r⟩ = ([], ⟨o + ws.length, r⟩) := by
  have hskip : (⟨o, ws ++ r⟩ : Cursor).skipWhile isAsciiBlank = ⟨o + ws.length, r⟩ :=
    Cursor.skipWhile_append o hws fun c hc => (hr c hc).1
  rw [extras.eq_def, hskip]
  simp only [comment?_eq_none (c := ⟨o + ws.length, r⟩) hr]

/-- **Blanks are passed over** and nothing else. -/
theorem skipExtras_blank {ws r : List Char} (o : Nat) (hws : Blank ws) (hr : Quiet r) :
    skipExtras ⟨o, ws ++ r⟩ = ([], ⟨o + ws.length, r⟩) :=
  extras_blank _ o hws hr

/-- When no comment is found, what was passed over is blank. -/
theorem blank_of_skipExtras {c c' : Cursor} (h : skipExtras c = ([], c')) :
    ∃ ws, Blank ws ∧ c.rest = ws ++ c'.rest ∧ c'.offset = c.offset + ws.length := by
  refine ⟨c.rest.takeWhile isAsciiBlank, fun x hx => List.mem_takeWhile_imp hx, ?_⟩
  rw [skipExtras, extras.eq_def] at h
  simp only at h
  split at h
  · cases h
  · injection h with _ h
    rw [← h]
    exact ⟨List.takeWhile_append_dropWhile.symm, rfl⟩

/-! ## Strings -/

theorem stringEnd?_cons {c : Char} (hquote : c ≠ '"') (hslash : c ≠ '\\') (s : List Char) :
    stringEnd? (c :: s) = if c = '\n' then none else (stringEnd? s).map (· + 1) := by
  rw [stringEnd?]
  · simp only [hslash, false_or]
  · exact hquote
  · exact fun _ _ h => absurd h hslash

/-- A string ends where it ends, whatever follows. -/
theorem stringEnd?_append {s : List Char} {n : Nat} (h : stringEnd? s = some n) (r : List Char) :
    stringEnd? (s ++ r) = some n := by
  fun_induction stringEnd? s generalizing n with
  | case1 => cases h
  | case2 rest => exact h
  | case3 e rest he ih =>
    obtain ⟨m, hm, rfl⟩ := Option.map_eq_some_iff.mp h
    rw [List.cons_append, List.cons_append, stringEnd?, if_pos he, ih hm]
    rfl
  | case4 e rest he => cases h
  | case5 c rest h1 h2 h3 => cases h
  | case6 c rest hquote h2 h3 ih =>
    obtain ⟨m, hm, rfl⟩ := Option.map_eq_some_iff.mp h
    rw [not_or] at h3
    rw [List.cons_append, stringEnd?_cons hquote h3.1, if_neg h3.2, ih hm]
    rfl

/-- **A string that was cut out is one on its own.** -/
theorem stringEnd?_take {s : List Char} {n : Nat} (h : stringEnd? s = some n) :
    n ≤ s.length ∧ stringEnd? (s.take n) = some n := by
  fun_induction stringEnd? s generalizing n with
  | case1 => cases h
  | case2 rest =>
    injection h with h
    subst h
    exact ⟨by simp, rfl⟩
  | case3 e rest he ih =>
    obtain ⟨m, hm, rfl⟩ := Option.map_eq_some_iff.mp h
    refine ⟨by simpa using (ih hm).1, ?_⟩
    rw [List.take_succ_cons, List.take_succ_cons, stringEnd?, if_pos he, (ih hm).2]
    rfl
  | case4 e rest he => cases h
  | case5 c rest h1 h2 h3 => cases h
  | case6 c rest hquote h2 h3 ih =>
    obtain ⟨m, hm, rfl⟩ := Option.map_eq_some_iff.mp h
    rw [not_or] at h3
    refine ⟨by simpa using (ih hm).1, ?_⟩
    rw [List.take_succ_cons, stringEnd?_cons hquote h3.1, if_neg h3.2, (ih hm).2]
    rfl

/-! ## Numbers -/

/-- A character that numbers are written with. -/
def isNumberChar (c : Char) : Bool :=
  isAsciiDigit c || c == '-' || c == '.' || c == 'e' || c == 'E'

theorem isNumberChar_of_isAsciiDigit {c : Char} (h : isAsciiDigit c = true) : isNumberChar c = true := by
  rw [isNumberChar, h]
  rfl

/-- How many characters a piece in front of a text takes, when they are ones of numbers and their
number depends on them alone: not on what follows once that stops, and not on what is cut off behind
them. -/
structure Local (f : List Char → Nat) : Prop where
  chars (s : List Char) : ∀ c ∈ s.take (f s), isNumberChar c = true
  le (s : List Char) : f s ≤ s.length
  append {r : List Char} (hr : Stops r) (s : List Char) : f (s ++ r) = f s
  take {m : Nat} {s : List Char} (h : f s ≤ m) : f (s.take m) = f s

/-- One piece and another one behind it. -/
def both (f g : List Char → Nat) (s : List Char) : Nat := f s + g (s.drop (f s))

theorem Local.both {f g : List Char → Nat} (hf : Local f) (hg : Local g) : Local (both f g) where
  chars s := by
    rw [Grammar.both, List.take_add, List.forall_mem_append]
    exact ⟨hf.chars s, hg.chars _⟩
  le s := by
    have hdrop := hg.le (s.drop (f s))
    have := hf.le s
    rw [List.length_drop] at hdrop
    rw [Grammar.both]
    omega
  append hr s := by
    rw [Grammar.both, Grammar.both, hf.append hr, List.drop_append_of_le_length (hf.le s),
      hg.append hr]
  take h := by
    rw [Grammar.both] at h
    rw [Grammar.both, Grammar.both, hf.take (Nat.le_of_add_right_le h), List.drop_take,
      hg.take (Nat.le_sub_of_add_le' h)]

/-- The length of a minus, if there is one. -/
def minusLength (s : List Char) : Nat := if s.head? = some '-' then 1 else 0

theorem minusLength_le (s : List Char) : minusLength s ≤ 1 := by
  rw [minusLength]
  split <;> omega

theorem local_minusLength : Local minusLength where
  chars s := by
    rw [minusLength]
    split
    · next h => cases s with
      | nil => cases h
      | cons c s =>
        obtain rfl := Option.some.inj h
        exact List.forall_mem_singleton.mpr rfl
    · exact fun c hc => nomatch hc
  le s := by
    cases s with
    | nil => exact Nat.le_refl _
    | cons c s => exact (minusLength_le _).trans (Nat.le_add_left 1 s.length)
  append {r} hr s := by
    cases s with
    | nil =>
      have hhead : r.head? ≠ some '-' := fun h => (hr _ h).2.2.2.2 rfl
      simp [minusLength, hhead]
    | cons c s => rfl
  take {m s} h := by
    cases m with
    | zero => rw [List.take_zero, Nat.eq_zero_of_le_zero h]; rfl
    | succ m => cases s <;> rfl

/-- A piece with a minus in front of it, if there is one; a minus alone is nothing. -/
def signed (f : List Char → Nat) (s : List Char) : Nat :=
  if f (s.drop (minusLength s)) = 0 then 0 else both minusLength f s

theorem Local.signed {f : List Char → Nat} (hf : Local f) : Local (signed f) where
  chars s := by
    rw [Grammar.signed]
    split
    · exact fun c hc => nomatch hc
    · exact (local_minusLength.both hf).chars s
  le s := by
    rw [Grammar.signed]
    split
    · exact Nat.zero_le _
    · exact (local_minusLength.both hf).le s
  append hr s := by
    rw [Grammar.signed, Grammar.signed, (local_minusLength.both hf).append hr,
      local_minusLength.append hr, List.drop_append_of_le_length (local_minusLength.le s), hf.append hr]
  take {m s} h := by
    cases m with
    | zero =>
      have hnil := hf.le []
      rw [List.take_zero, Nat.eq_zero_of_le_zero h, Grammar.signed]
      exact if_pos (Nat.eq_zero_of_le_zero hnil)
    | succ m =>
      rw [Grammar.signed] at h ⊢
      rw [Grammar.signed, local_minusLength.take ((minusLength_le s).trans (Nat.le_add_left 1 m)),
        List.drop_take]
      split at h
      · next h0 => rw [hf.take (by omega), if_pos h0, if_pos h0]
      · next h0 =>
        have hle := h
        rw [Grammar.both] at hle
        rw [hf.take (by omega), (local_minusLength.both hf).take h]

/-- The length of the digits in front. -/
def digitsLength (s : List Char) : Nat := (s.takeWhile isAsciiDigit).length

theorem local_digitsLength : Local digitsLength where
  chars s c hc := by
    rw [digitsLength, ← List.prefix_iff_eq_take.mp (List.takeWhile_prefix isAsciiDigit)] at hc
    exact isNumberChar_of_isAsciiDigit (List.mem_takeWhile_imp hc)
  le s := (List.takeWhile_prefix _).length_le
  append hr s := by rw [digitsLength, takeWhile_append_of_stop s fun c hc => (hr c hc).1, digitsLength]
  take {m s} h := by
    rw [digitsLength] at h ⊢
    rw [digitsLength, List.take_takeWhile.symm, List.take_of_length_le h]

/-- The length of a zero in front, or of the digits. -/
def wholeLength (s : List Char) : Nat := if s.head? = some '0' then 1 else digitsLength s

theorem local_wholeLength : Local wholeLength where
  chars s := by
    rw [wholeLength]
    split
    · next h => cases s with
      | nil => cases h
      | cons c s =>
        obtain rfl := Option.some.inj h
        exact List.forall_mem_singleton.mpr rfl
    · exact local_digitsLength.chars s
  le s := by
    rw [wholeLength]
    split
    · next h => cases s with
      | nil => cases h
      | cons c s => simp
    · exact local_digitsLength.le s
  append {r} hr s := by
    rw [wholeLength, wholeLength, local_digitsLength.append hr]
    cases s with
    | nil =>
      have hhead : r.head? ≠ some '0' := fun h => absurd (hr _ h).1 (by decide)
      simp [hhead]
    | cons c s => rfl
  take {m s} h := by
    cases m with
    | zero => rw [List.take_zero, Nat.eq_zero_of_le_zero h]; rfl
    | succ m =>
      have hhead : (s.take (m + 1)).head? = s.head? := by cases s <;> rfl
      rw [wholeLength] at h ⊢
      rw [wholeLength, hhead]
      split
      · rfl
      · next hne => rw [if_neg hne] at h; exact local_digitsLength.take h

/-- The length of a point with the digits behind it, if there is one. -/
def fractionLength : List Char → Nat
  | '.' :: more => 1 + digitsLength more
  | _ => 0

theorem fractionLength_cons (c : Char) (s : List Char) :
    fractionLength (c :: s) = if c = '.' then 1 + digitsLength s else 0 := by
  split
  · next h => rw [h, fractionLength]
  · next h => rw [fractionLength]; exact fun _ h' => h (List.cons.inj h').1

theorem local_fractionLength : Local fractionLength where
  chars s := by
    cases s with
    | nil => exact fun c hc => nomatch hc
    | cons c s =>
      rw [fractionLength_cons]
      split
      · next hc =>
        rw [Nat.add_comm, List.take_succ_cons, List.forall_mem_cons, hc]
        exact ⟨rfl, local_digitsLength.chars s⟩
      · exact fun c hc => nomatch hc
  le s := by
    cases s with
    | nil => exact Nat.le_refl _
    | cons c s =>
      have := local_digitsLength.le s
      rw [fractionLength_cons, List.length_cons]
      split <;> omega
  append {r} hr s := by
    cases s with
    | nil =>
      cases r with
      | nil => rfl
      | cons c r => rw [List.nil_append, fractionLength_cons, if_neg (hr c rfl).2.1]; rfl
    | cons c s =>
      rw [List.cons_append, fractionLength_cons, fractionLength_cons, local_digitsLength.append hr]
  take {m s} h := by
    cases m with
    | zero => rw [List.take_zero, Nat.eq_zero_of_le_zero h]; rfl
    | succ m =>
      cases s with
      | nil => rfl
      | cons c s =>
        rw [fractionLength_cons] at h ⊢
        rw [List.take_succ_cons, fractionLength_cons]
        split
        · next hc => rw [if_pos hc] at h; rw [local_digitsLength.take (by omega)]
        · rfl

theorem exponentLength_cons (c : Char) (s : List Char) : exponentLength (c :: s) =
    if (c = 'e' ∨ c = 'E') ∧ signed digitsLength s ≠ 0 then 1 + signed digitsLength s else 0 := by
  have hdigits : exponentLength (c :: s) = if c = 'e' ∨ c = 'E' then
      if digitsLength (s.drop (minusLength s)) = 0 then 0
      else 1 + minusLength s + digitsLength (s.drop (minusLength s)) else 0 := rfl
  rw [hdigits, signed, both]
  by_cases hzero : digitsLength (s.drop (minusLength s)) = 0
  · simp only [hzero, if_true, ne_eq, not_true, and_false, ite_self, if_false]
  · have hsum : minusLength s + digitsLength (s.drop (minusLength s)) ≠ 0 := by omega
    simp only [hzero, if_false, ne_eq, hsum, not_false_eq_true, and_true, Nat.add_assoc]

theorem local_exponentLength : Local exponentLength where
  chars s := by
    cases s with
    | nil => exact fun c hc => nomatch hc
    | cons c s =>
      rw [exponentLength_cons]
      split
      · next h =>
        rw [Nat.add_comm, List.take_succ_cons, List.forall_mem_cons]
        exact ⟨by rcases h.1 with rfl | rfl <;> rfl, local_digitsLength.signed.chars s⟩
      · exact fun c hc => nomatch hc
  le s := by
    cases s with
    | nil => exact Nat.le_refl _
    | cons c s =>
      have := local_digitsLength.signed.le s
      rw [exponentLength_cons, List.length_cons]
      split <;> omega
  append {r} hr s := by
    cases s with
    | nil =>
      cases r with
      | nil => rfl
      | cons c r =>
        have hc := hr c rfl
        rw [List.nil_append, exponentLength_cons, if_neg fun h => h.1.elim hc.2.2.1 hc.2.2.2.1]
        rfl
    | cons c s =>
      rw [List.cons_append, exponentLength_cons, exponentLength_cons,
        local_digitsLength.signed.append hr]
  take {m s} h := by
    cases m with
    | zero => rw [List.take_zero, Nat.eq_zero_of_le_zero h]; rfl
    | succ m =>
      cases s with
      | nil => rfl
      | cons c s =>
        rw [exponentLength_cons] at h ⊢
        rw [List.take_succ_cons, exponentLength_cons]
        by_cases hc : c = 'e' ∨ c = 'E'
        · have hle : signed digitsLength s ≤ m := by
            split at h
            · omega
            · next hn =>
              have h0 : signed digitsLength s = 0 := by_contra fun h0 => hn ⟨hc, h0⟩
              omega
          rw [local_digitsLength.signed.take hle]
        · rw [if_neg fun h => hc h.1, if_neg fun h => hc h.1]

/-- The part of a number behind its minus: digits, a fraction and an exponent. -/
def unsignedLength (s : List Char) : Nat :=
  if wholeLength s = 0 then 0 else both wholeLength (both fractionLength exponentLength) s

theorem local_unsignedLength : Local unsignedLength where
  chars s := by
    rw [unsignedLength]
    split
    · exact fun c hc => nomatch hc
    · exact (local_wholeLength.both (local_fractionLength.both local_exponentLength)).chars s
  le s := by
    rw [unsignedLength]
    split
    · exact Nat.zero_le _
    · exact (local_wholeLength.both (local_fractionLength.both local_exponentLength)).le s
  append hr s := by
    rw [unsignedLength, unsignedLength, local_wholeLength.append hr,
      (local_wholeLength.both (local_fractionLength.both local_exponentLength)).append hr]
  take {m s} h := by
    rw [unsignedLength] at h
    rw [unsignedLength, unsignedLength]
    split at h
    · next h0 => rw [local_wholeLength.take (by omega), if_pos h0, if_pos h0]
    · next h0 =>
      have hle : wholeLength s ≤ m := Nat.le_of_add_right_le h
      rw [local_wholeLength.take hle, if_neg h0, if_neg h0,
        (local_wholeLength.both (local_fractionLength.both local_exponentLength)).take h]

theorem numberLength_eq (s : List Char) : numberLength s = signed unsignedLength s := by
  have hunfold : numberLength s =
      let t := s.drop (minusLength s)
      if wholeLength t = 0 then 0
      else minusLength s + wholeLength t + fractionLength (t.drop (wholeLength t))
        + exponentLength ((t.drop (wholeLength t)).drop (fractionLength (t.drop (wholeLength t)))) := rfl
  rw [hunfold, signed, both, unsignedLength]
  simp only [both]
  split
  · rw [if_pos rfl]
  · rw [if_neg (by omega)]
    omega

/-- **A number takes as much as its own characters say.** -/
theorem local_numberLength : Local numberLength :=
  (funext numberLength_eq : numberLength = signed unsignedLength) ▸ local_unsignedLength.signed

end Grammar

end Json

end SlotEdit
