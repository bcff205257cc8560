import Mathlib.Tactic.FinCases
import SlotEdit.Proofs.Results
import SlotEdit.Proofs.Text.Runs
import SlotEdit.Script.Tree

/-!
# Proofs/Script/StringLiterals — a string literal is read alike on its own and in front of a text
-/

namespace SlotEdit.Script

open Option (bind_eq_some_iff)

variable {kind : Quoting} {letters s t rest : List Char} {c : Char} {o : Nat}

/-! ## Openings -/

theorem isQuotingLetter_iff : isQuotingLetter c = true ↔ c ∈ ['f', 'F', 'r', 'R', 'b', 'B', 'u', 'U'] := by
  simp [isQuotingLetter]

theorem isQuote_iff : isQuote c = true ↔ c ∈ ['"', '\'', '`'] := by
  simp [isQuote, or_assoc]

theorem isQuotingLetter_of_isQuote (h : isQuote c = true) : isQuotingLetter c = false := by
  rw [isQuote_iff] at h
  revert c
  simp only [List.forall_mem_cons]
  simp [isQuotingLetter]

/-- The kind of literals that some letters and a quote open. -/
def quotingOf (letters : List Char) (quote : Char) (triple : Bool) : Quoting :=
  ⟨letters.contains 'f' || letters.contains 'F', letters.contains 'r' || letters.contains 'R',
    letters.contains 'b' || letters.contains 'B', quote, triple⟩

theorem takeWhile_letters (hletters : ∀ c ∈ letters, isQuotingLetter c = true) (hc : isQuote c = true) :
    (letters ++ c :: rest).takeWhile isQuotingLetter = letters :=
  takeWhile_run hletters fun _ h => Option.some.inj h ▸ isQuotingLetter_of_isQuote hc

theorem quoting?_eq (hletters : ∀ c ∈ letters, isQuotingLetter c = true) (hc : isQuote c = true) :
    quoting? ⟨o, letters ++ c :: rest⟩ =
      if c ≠ '`' ∧ rest.take 2 = [c, c] then some (quotingOf letters c true, ⟨o + (letters.length + 3), rest.drop 2⟩)
      else some (quotingOf letters c false, ⟨o + (letters.length + 1), rest⟩) := by
  rw [quoting?]
  dsimp only
  rw [takeWhile_letters hletters hc, List.drop_left]
  dsimp only
  rw [if_pos hc]
  by_cases htriple : c ≠ '`' ∧ rest.take 2 = [c, c]
  · obtain ⟨b, hb⟩ : ∃ b, rest = [c, c] ++ b := ⟨rest.drop 2, by rw [← htriple.2, List.take_append_drop]⟩
    rw [if_pos htriple, htriple.2, bne_iff_ne.mpr htriple.1, beq_self_eq_true, Bool.and_self, if_pos rfl, Cursor.drop, hb]
    simp [quotingOf, List.drop_append]
  · have hsingle : (c != '`' && rest.take 2 == [c, c]) = false := by
      rw [Bool.eq_false_iff, Ne, Bool.and_eq_true, bne_iff_ne, beq_iff_eq]
      exact htriple
    rw [if_neg htriple, hsingle, if_neg Bool.false_ne_true, Cursor.drop]
    simp [quotingOf, List.drop_append]

/-- The quotes that a literal of a kind stands between. -/
def Quoting.quotes (kind : Quoting) : List Char :=
  if kind.triple then [kind.quote, kind.quote, kind.quote] else [kind.quote]

theorem Quoting.quotes_of_triple (h : kind.triple = true) : kind.quotes = [kind.quote, kind.quote, kind.quote] :=
  if_pos h

theorem Quoting.quotes_of_single (h : kind.triple = false) : kind.quotes = [kind.quote] :=
  if_neg (Bool.eq_false_iff.mp h)

theorem Quoting.exists_quotes_append (kind : Quoting) (s : List Char) : ∃ rest, kind.quotes ++ s = kind.quote :: rest := by
  rw [Quoting.quotes]
  split
  · exact ⟨_, rfl⟩
  · exact ⟨_, rfl⟩

theorem Quoting.quotes_ne_nil (kind : Quoting) : kind.quotes ≠ [] := by
  obtain ⟨rest, hrest⟩ := kind.exists_quotes_append []
  rw [List.append_nil] at hrest
  exact hrest ▸ List.cons_ne_nil _ _

theorem Quoting.mem_quotes (h : c ∈ kind.quotes) : c = kind.quote := by
  rw [Quoting.quotes] at h
  split at h <;> simpa using h

/-- **A kind of literals and the letters that open it.** -/
structure Opens (kind : Quoting) (letters : List Char) : Prop where
  isLetter : ∀ c ∈ letters, isQuotingLetter c = true
  isQuote : isQuote kind.quote = true
  eq : kind = quotingOf letters kind.quote kind.triple
  triple : kind.triple = true → kind.quote ≠ '`'

/-- No two quotes follow the one that opens a literal, which would make it a longer opening. -/
def StaysSingle (kind : Quoting) (rest : List Char) : Prop :=
  kind.triple = false → kind.quote ≠ '`' → rest.take 2 ≠ [kind.quote, kind.quote]

/-- **An opening is read**, whatever follows it. -/
theorem quoting?_of_opens (h : Opens kind letters) (hsingle : StaysSingle kind rest) :
    quoting? ⟨o, letters ++ (kind.quotes ++ rest)⟩ =
      some (kind, ⟨o + (letters.length + kind.quotes.length), rest⟩) := by
  rw [Quoting.quotes]
  split
  · next htriple =>
    refine (quoting?_eq h.isLetter h.isQuote).trans ?_
    rw [if_pos ⟨h.triple htriple, rfl⟩, ← htriple, ← h.eq]
    rfl
  · next htriple =>
    rw [Bool.not_eq_true] at htriple
    refine (quoting?_eq h.isLetter h.isQuote).trans ?_
    rw [if_neg fun hlong => hsingle htriple hlong.1 hlong.2, ← htriple, ← h.eq]
    rfl

/-- And what is read is an opening. -/
theorem opens_of_quoting? {text : List Char} {inside : Cursor} (h : quoting? ⟨o, text⟩ = some (kind, inside)) :
    ∃ letters, Opens kind letters ∧ text = letters ++ (kind.quotes ++ inside.rest) ∧ StaysSingle kind inside.rest := by
  have hletters : ∀ c ∈ text.takeWhile isQuotingLetter, isQuotingLetter c = true :=
    List.all_eq_true.mp (List.all_takeWhile)
  have htext := List.takeWhile_append_dropWhile (p := isQuotingLetter) (l := text)
  generalize hfront : text.takeWhile isQuotingLetter = letters at hletters htext
  generalize text.dropWhile isQuotingLetter = rest at htext
  subst htext
  cases rest with
  | nil =>
    rw [quoting?] at h
    dsimp only at h
    rw [hfront, List.drop_left] at h
    cases h
  | cons c rest =>
    cases hc : isQuote c with
    | false =>
      rw [quoting?] at h
      dsimp only at h
      rw [hfront, List.drop_left] at h
      dsimp only at h
      rw [hc, if_neg Bool.false_ne_true] at h
      cases h
    | true =>
      rw [quoting?_eq hletters hc] at h
      split at h
      · next htriple =>
        obtain ⟨rfl, rfl⟩ := Prod.mk.inj (Option.some.inj h)
        refine ⟨letters, ⟨hletters, hc, rfl, fun _ => htriple.1⟩, ?_, nofun⟩
        rw [← List.take_append_drop 2 rest, htriple.2]
        rfl
      · next hsingle =>
        obtain ⟨rfl, rfl⟩ := Prod.mk.inj (Option.some.inj h)
        exact ⟨letters, ⟨hletters, hc, rfl, nofun⟩, rfl, fun _ hne htake => hsingle ⟨hne, htake⟩⟩

/-! ## The inside of a literal, up to its closing quotes -/

/-- A text starts with the name of a character in braces, made of what names are made of. -/
def CallsName (s : List Char) : Prop :=
  ∃ name rest, name ≠ [] ∧ (∀ c ∈ name, isNameLetter c = true) ∧ s = '\x7b' :: (name ++ '\x7d' :: rest)

theorem CallsName.append (h : CallsName s) (t : List Char) : CallsName (s ++ t) := by
  obtain ⟨name, rest, hne, hletters, rfl⟩ := h
  exact ⟨name, rest ++ t, hne, hletters, by simp⟩

/-- **What may stand behind the opening of a literal**: characters and escapes, and the closing quotes at
the end. -/
inductive Inside (kind : Quoting) : List Char → Prop
  | close : Inside kind kind.quotes
  | plain {c : Char} {rest : List Char} (hc : c ≠ '\\') (hzero : c.toNat ≠ 0)
      (hquote : c = kind.quote → kind.triple = true ∧ rest.take 2 ≠ [c, c])
      (hbreak : c = '\n' → kind.triple = true) (h : Inside kind rest) : Inside kind (c :: rest)
  | escape {c : Char} {rest : List Char} (hzero : c.toNat ≠ 0)
      (hname : c = 'N' → kind.raw = true ∨ kind.bytes = true ∨ CallsName rest) (hreturn : c = '\r' → rest.head? ≠ some '\n') (h : Inside kind rest) : Inside kind ('\\' :: c :: rest)
  | joined {rest : List Char} (h : Inside kind rest) : Inside kind ('\\' :: '\r' :: '\n' :: rest)

namespace Inside

theorem length_le (h : Inside kind s) : kind.quotes.length ≤ s.length := by
  induction h with
  | close => exact Nat.le_refl _
  | plain _ _ _ _ _ ih => exact Nat.le_succ_of_le ih
  | escape _ _ _ _ ih => exact Nat.le_trans ih (Nat.le_add_right _ 2)
  | joined _ ih => exact Nat.le_trans ih (Nat.le_add_right _ 3)

theorem ne_nil (h : Inside kind s) : s ≠ [] := by
  cases h with
  | close => exact kind.quotes_ne_nil
  | plain => exact List.cons_ne_nil _ _
  | escape => exact List.cons_ne_nil _ _
  | joined => exact List.cons_ne_nil _ _

theorem getLast?_eq (h : Inside kind s) : s.getLast? = some kind.quote := by
  induction h with
  | close =>
    rw [Quoting.quotes]
    split <;> rfl
  | plain _ _ _ _ _ ih => rw [List.getLast?_cons, ih, Option.getD_some]
  | escape _ _ _ _ ih => rw [List.getLast?_cons, List.getLast?_cons, ih, Option.getD_some, Option.getD_some]
  | joined _ ih =>
    rw [List.getLast?_cons, List.getLast?_cons, List.getLast?_cons, ih, Option.getD_some, Option.getD_some, Option.getD_some]

theorem eq_quotes_or_of_cons (h : Inside kind (c :: s)) (hc : c ≠ '\\') : c :: s = kind.quotes ∨ Inside kind s := by
  generalize hs : c :: s = s' at h
  cases h with
  | close => exact .inl rfl
  | plain _ _ _ _ h => exact .inr ((List.cons.inj hs).2 ▸ h)
  | escape => exact absurd (List.cons.inj hs).1 hc
  | joined => exact absurd (List.cons.inj hs).1 hc

theorem of_cons (h : Inside kind (c :: s)) (hc : c ≠ '\\') (hquote : c ≠ kind.quote) : Inside kind s := by
  refine (h.eq_quotes_or_of_cons hc).resolve_left fun heq => ?_
  rw [Quoting.quotes] at heq
  split at heq
  all_goals exact hquote (List.cons.inj heq).1

/-- Characters that neither escape nor end anything stand inside. -/
theorem drop {n : Nat} (h : Inside kind s)
    (hplain : ∀ c ∈ (s ++ t).take n, c ≠ '\\' ∧ c ≠ kind.quote) : Inside kind (s.drop n) ∧ n ≤ s.length := by
  induction n generalizing s with
  | zero => exact ⟨h, Nat.zero_le _⟩
  | succ n ih =>
    cases s with
    | nil => exact absurd rfl h.ne_nil
    | cons c s =>
      rw [List.cons_append, List.take_succ_cons, List.forall_mem_cons] at hplain
      obtain ⟨hrest, hn⟩ := ih (h.of_cons hplain.1.1 hplain.1.2) hplain.2
      exact ⟨hrest, Nat.succ_le_succ hn⟩

end Inside

/-! ## The grammar passes the inside of a literal -/

/-- An escape of this length stops at characters that neither escape nor end anything. -/
structure Lands (kind : Quoting) (c : Char) (rest : List Char) (n : Nat) : Prop where
  zero : n = 0 → c ≠ '\\' ∧ c ≠ kind.quote ∧ c ≠ '\n'
  succ : ∀ k, n = k + 1 → ∀ d ∈ rest.take k, d ≠ '\\' ∧ d ≠ kind.quote

theorem Lands.inside {n : Nat} (h : Lands kind c (rest ++ t) n) (hzero : c.toNat ≠ 0) (hrest : Inside kind rest) :
    Inside kind ((c :: rest).drop n) ∧ n ≤ (c :: rest).length := by
  cases n with
  | zero =>
    obtain ⟨hc, hquote, hbreak⟩ := h.zero rfl
    exact ⟨.plain hc hzero (fun heq => absurd heq hquote) (fun heq => absurd heq hbreak) hrest, Nat.zero_le _⟩
  | succ n =>
    obtain ⟨hdrop, hn⟩ := hrest.drop (h.succ n rfl)
    exact ⟨hdrop, Nat.succ_le_succ hn⟩

/-- The quotes of Python's literals. -/
def Quoting.IsPlain (kind : Quoting) : Prop := kind.quote = '"' ∨ kind.quote = '\''

theorem ne_of_isHexDigit (hquote : kind.IsPlain) (h : isHexDigit c = true) : c ≠ '\\' ∧ c ≠ kind.quote := by
  refine ⟨fun heq => ?_, fun heq => ?_⟩
  · exact absurd (heq ▸ h) (by decide)
  · rcases hquote with hq | hq
    all_goals exact absurd (hq ▸ heq ▸ h) (by decide)

theorem isHexDigit_of_isAsciiDigit (h : isAsciiDigit c = true) : isHexDigit c = true := by
  rw [isHexDigit, hexValue?, if_pos h]
  rfl

theorem ne_of_isNameLetter (hquote : kind.IsPlain) (h : isNameLetter c = true) : c ≠ '\\' ∧ c ≠ kind.quote := by
  refine ⟨fun heq => ?_, fun heq => ?_⟩
  · exact absurd (heq ▸ h) (by decide)
  · rcases hquote with hq | hq
    all_goals exact absurd (hq ▸ heq ▸ h) (by decide)

/-- An escape that calls a character by its name takes the name and its braces. -/
theorem escapeLength_of_callsName {name : List Char} (hne : name ≠ []) (hletters : ∀ c ∈ name, isNameLetter c = true)
    (rest : List Char) : escapeLength ('N' :: '\x7b' :: (name ++ '\x7d' :: rest)) = name.length + 3 := by
  have hbrace : ∀ c ∈ name, (c != '\x7d') = true := fun c hc =>
    bne_iff_ne.mpr fun heq => absurd (heq ▸ hletters c hc) (by decide)
  rw [escapeLength, takeWhile_run hbrace (by simp), if_neg]
  rw [List.length_append, List.length_cons, List.length_eq_zero_iff]
  exact fun h => h.elim hne fun h => absurd h (by omega)

theorem lands_escapeLength (hquote : kind.IsPlain) (hname : c = 'N' → CallsName rest) (hreturn : c = '\r' → rest.head? ≠ some '\n') :
    Lands kind c rest (escapeLength (c :: rest)) := by
  have hhex {n : Nat} (hc : c ≠ '\\' ∧ c ≠ kind.quote ∧ c ≠ '\n') : Lands kind c rest
      (if (c :: rest).length ≤ n then 0 else if (((c :: rest).drop 1).take n).all isHexDigit then n + 1 else 0) := by
    split
    · exact ⟨fun _ => hc, nofun⟩
    · split
      · next hall =>
        refine ⟨nofun, fun k hk d hd => ?_⟩
        obtain rfl := Nat.succ.inj hk
        exact ne_of_isHexDigit hquote (List.all_eq_true.mp hall d hd)
      · exact ⟨fun _ => hc, nofun⟩
  have hne {a : Char} (hslash : a ≠ '\\') (hdouble : a ≠ '"') (hsingle : a ≠ '\'') (hline : a ≠ '\n') :
      a ≠ '\\' ∧ a ≠ kind.quote ∧ a ≠ '\n' := by
    refine ⟨hslash, fun heq => ?_, hline⟩
    rcases hquote with hq | hq
    · exact hdouble (heq.trans hq)
    · exact hsingle (heq.trans hq)
  by_cases hN : c = 'N'
  · obtain ⟨name, more, hnonempty, hletters, rfl⟩ := hname hN
    rw [hN, escapeLength_of_callsName hnonempty hletters]
    refine ⟨nofun, fun k hk d hd => ?_⟩
    obtain rfl := Nat.succ.inj hk
    rw [List.take_succ_cons, List.take_length_add_append, List.mem_cons, List.mem_append, List.take_succ_cons,
      List.take_zero, List.mem_singleton] at hd
    rcases hd with rfl | hd | rfl
    · exact ⟨by decide, fun heq => absurd hquote (by rw [Quoting.IsPlain, ← heq]; decide)⟩
    · exact ne_of_isNameLetter hquote (hletters d hd)
    · exact ⟨by decide, fun heq => absurd hquote (by rw [Quoting.IsPlain, ← heq]; decide)⟩
  rw [escapeLength.eq_def]
  split
  · next heq =>
    obtain ⟨rfl, rfl⟩ := List.cons.inj heq
    exact hhex (hne (by decide) (by decide) (by decide) (by decide))
  · next heq =>
    obtain ⟨rfl, rfl⟩ := List.cons.inj heq
    exact hhex (hne (by decide) (by decide) (by decide) (by decide))
  · next heq =>
    obtain ⟨rfl, rfl⟩ := List.cons.inj heq
    exact hhex (hne (by decide) (by decide) (by decide) (by decide))
  · next heq =>
    obtain ⟨rfl, rfl⟩ := List.cons.inj heq
    exact absurd rfl (hreturn rfl)
  · next heq => exact absurd (List.cons.inj heq).1 hN
  · next heq =>
    obtain ⟨rfl, rfl⟩ := List.cons.inj heq
    split
    · next hdigit =>
      -- the first of the digits is the character itself
      rw [List.take_succ_cons, List.takeWhile_cons_of_pos hdigit]
      refine ⟨nofun, fun k hk d hd => ?_⟩
      obtain rfl := Nat.succ.inj hk
      have hprefix := (List.takeWhile_prefix isAsciiDigit).trans (List.take_prefix 2 rest)
      rw [← List.prefix_iff_eq_take.mp hprefix] at hd
      exact ne_of_isHexDigit hquote (isHexDigit_of_isAsciiDigit (List.all_eq_true.mp List.all_takeWhile d hd))
    · split
      · exact ⟨nofun, fun k hk => by obtain rfl := Nat.succ.inj hk; exact nofun⟩
      · next hother =>
        refine ⟨fun _ => ?_, nofun⟩
        simp only [List.contains_eq_mem, decide_eq_true_eq] at hother
        simp at hother
        exact hne hother.2.2.2.2.2.2.2.2.2.2 hother.2.2.1 hother.2.1 hother.1
  · next heq => cases heq

/-- How many characters a line break at the front takes. -/
def breakLength : List Char → Nat
  | '\r' :: '\n' :: _ => 2
  | '\r' :: _ => 1
  | '\n' :: _ => 1
  | _ => 0

theorem mem_of_mem_take_breakLength {d : Char} (h : d ∈ s.take (breakLength s)) : d ∈ ['\r', '\n'] := by
  unfold breakLength at h
  split at h <;> simp_all

theorem rawEscapeLength_cons : rawEscapeLength kind.quote (c :: rest) =
    if c = kind.quote ∨ c = '\\' then 1 + breakLength rest else breakLength (c :: rest) := by
  by_cases hc : c = kind.quote ∨ c = '\\'
  · unfold rawEscapeLength breakLength
    simp only [if_pos hc, List.drop_succ_cons, List.drop_zero]
    split <;> simp_all
  · rw [rawEscapeLength, if_neg hc, if_neg hc]
    rfl

theorem lands_rawEscapeLength (hquote : kind.IsPlain) : Lands kind c rest (rawEscapeLength kind.quote (c :: rest)) := by
  have hne : ∀ d ∈ ['\r', '\n'], d ≠ '\\' ∧ d ≠ kind.quote := by
    rcases hquote with hq | hq
    all_goals
      rw [hq]
      simp
  rw [rawEscapeLength_cons]
  by_cases hc : c = kind.quote ∨ c = '\\'
  · rw [if_pos hc, Nat.add_comm]
    refine ⟨nofun, fun k hk d hd => hne d (mem_of_mem_take_breakLength (s := rest) ?_)⟩
    rwa [Nat.succ.inj hk]
  · rw [if_neg hc]
    rw [not_or] at hc
    refine ⟨fun h => ⟨hc.2, hc.1, fun heq => ?_⟩, fun k hk d hd => hne d ?_⟩
    · rw [heq] at h
      cases h
    · apply mem_of_mem_take_breakLength (s := c :: rest)
      rw [hk, List.take_succ_cons]
      exact List.mem_cons_of_mem _ hd

theorem drop_cursor {n : Nat} (h : n ≤ s.length) : Cursor.drop n ⟨o, s ++ t⟩ = ⟨o + n, s.drop n ++ t⟩ := by
  rw [Cursor.drop, List.drop_append_of_le_length h, Nat.min_eq_left (by rw [List.length_append]; omega)]

section

variable {interpolation : Cursor → Reading} {turns : Nat} {started : Bool}

theorem Quoting.IsPlain.not_mem (h : kind.IsPlain) : kind.quote ∉ ['\x00', '\\', '\r', '\n'] := by
  rcases h with h | h
  all_goals
    rw [h]
    decide

/-- **One step inside a literal** reads its closing quotes or stops inside again. -/
theorem stringBody_succ (o : Nat) (t : List Char) (interpolation : Cursor → Reading) (turns : Nat) (started : Bool)
    (hformatted : kind.formatted = false) (hquote : kind.IsPlain) (h : Inside kind s) :
    stringBody kind interpolation (turns + 1) started ⟨o, s ++ t⟩ = some ([], ⟨o + s.length, t⟩) ∨
      ∃ n started', 0 < n ∧ n ≤ s.length ∧ Inside kind (s.drop n) ∧
        stringBody kind interpolation (turns + 1) started ⟨o, s ++ t⟩ =
          stringBody kind interpolation turns started' ⟨o + n, s.drop n ++ t⟩ := by
  obtain ⟨hq0, hqslash, hqreturn, -⟩ :
      kind.quote ≠ '\x00' ∧ kind.quote ≠ '\\' ∧ kind.quote ≠ '\r' ∧ kind.quote ≠ '\n' := by
    simpa using hquote.not_mem
  have hstep {s : List Char} {b : Bool} {n : Nat} (hpos : 0 < n) (hn : n ≤ s.length) (h : Inside kind (s.drop n)) :
      ∃ m started'', 0 < m ∧ m ≤ s.length ∧ Inside kind (s.drop m) ∧
        stringBody kind interpolation turns b (Cursor.drop n ⟨o, s ++ t⟩) =
          stringBody kind interpolation turns started'' ⟨o + m, s.drop m ++ t⟩ :=
    ⟨n, b, hpos, hn, h, by rw [drop_cursor hn]⟩
  rw [stringBody.eq_def]
  cases h with
  | close =>
    have hzero : kind.quote.toNat ≠ 0 := fun h => hq0 (Char.toNat_inj.mp h)
    refine .inl ?_
    cases htriple : kind.triple with
    | true =>
      rw [kind.quotes_of_triple htriple]
      dsimp only [List.cons_append, List.nil_append]
      rw [if_neg hzero, hformatted, Bool.false_and, if_neg Bool.false_ne_true, if_neg hqslash, if_pos rfl,
        if_neg (by decide), if_pos rfl, if_pos rfl]
      exact congrArg (fun c => some ([], c)) (drop_cursor (s := [_, _, _]) (Nat.le_refl 3))
    | false =>
      rw [kind.quotes_of_single htriple]
      dsimp only [List.cons_append, List.nil_append]
      rw [if_neg hzero, hformatted, Bool.false_and, if_neg Bool.false_ne_true, if_neg hqslash, if_pos rfl,
        if_pos (by decide)]
      exact congrArg (fun c => some ([], c)) (drop_cursor (s := [_]) (Nat.le_refl 1))
  | @plain c rest hc hzero hclosing hbreak h =>
    refine .inr ?_
    dsimp only [List.cons_append]
    rw [if_neg hzero, hformatted, Bool.false_and, if_neg Bool.false_ne_true, if_neg hc]
    by_cases heq : c = kind.quote
    · obtain ⟨htriple, hopen⟩ := hclosing heq
      have hlength := h.length_le
      rw [kind.quotes_of_triple htriple] at hlength
      rw [if_pos heq, htriple, if_neg (by decide)]
      match rest, hlength with
      | second :: third :: rest, _ =>
        dsimp only [List.cons_append]
        split
        · next hsecond =>
          have hthird : third ≠ kind.quote := fun hthird => hopen (by rw [hsecond, hthird, heq]; rfl)
          rw [if_neg hthird]
          refine hstep Nat.two_pos (Nat.le_add_left _ _) ((h.eq_quotes_or_of_cons (hsecond ▸ hqslash)).resolve_left ?_)
          rw [kind.quotes_of_triple htriple]
          exact fun heq => hthird (List.cons.inj (List.cons.inj heq).2).1
        · exact hstep Nat.one_pos (Nat.le_add_left _ _) h
    · rw [if_neg heq, if_neg]
      · exact hstep Nat.one_pos (Nat.le_add_left _ _) h
      · rw [Bool.and_eq_true, Bool.and_eq_true, decide_eq_true_eq, Bool.not_eq_true']
        exact fun hline => Bool.false_ne_true (hline.2.symm.trans (hbreak hline.1.1))
  | @escape c rest hzero hname hreturn h =>
    refine .inr ?_
    dsimp only [List.cons_append]
    rw [if_neg (by decide), hformatted, Bool.false_and, if_neg Bool.false_ne_true, if_pos rfl]
    -- what is dropped is the backslash and what it takes with it
    have hland {b : Bool} {n : Nat} (hlands : Lands kind c (rest ++ t) n) :=
      have hinside := hlands.inside hzero h
      hstep (s := '\\' :: c :: rest) (b := b) (Nat.add_pos_left Nat.one_pos n)
        (Nat.add_comm 1 n ▸ Nat.succ_le_succ hinside.2) (Nat.add_comm 1 n ▸ hinside.1)
    split
    · exact hland (lands_rawEscapeLength hquote)
    · next hraw =>
      split
      · exact hstep (s := '\\' :: c :: rest) Nat.two_pos (Nat.le_add_left _ _) h
      · next hbytes =>
        refine hland (lands_escapeLength hquote (fun heq => ?_) fun heq => ?_)
        · rcases hname heq with hyes | hyes | hcalls
          · exact absurd hyes hraw
          · exact absurd (by rw [hyes, heq]; simp) hbytes
          · exact hcalls.append t
        · cases rest with
          | nil => exact absurd rfl h.ne_nil
          | cons d rest => exact hreturn heq
  | @joined rest h =>
    refine .inr ?_
    dsimp only [List.cons_append]
    rw [if_neg (by decide), hformatted, Bool.false_and, if_neg Bool.false_ne_true, if_pos rfl]
    rw [if_neg (show ¬ (kind.bytes && _) = true by simp)]
    split
    · rw [rawEscapeLength_cons, if_neg (by simp [hqreturn.symm])]
      exact hstep (s := '\\' :: '\r' :: '\n' :: rest) (n := 3) (Nat.succ_pos 2) (Nat.le_add_left _ _) h
    · exact hstep (s := '\\' :: '\r' :: '\n' :: rest) (n := 3) (Nat.succ_pos 2) (Nat.le_add_left _ _) h

/-- **The grammar reads up to the closing quotes.** -/
theorem stringBody_of_inside (hformatted : kind.formatted = false) (hquote : kind.IsPlain) (h : Inside kind s)
    (hturns : s.length ≤ turns) :
    stringBody kind interpolation turns started ⟨o, s ++ t⟩ = some ([], ⟨o + s.length, t⟩) := by
  induction turns generalizing started o s with
  | zero => exact absurd (List.length_eq_zero_iff.mp (Nat.le_zero.mp hturns)) h.ne_nil
  | succ turns ih =>
    rcases stringBody_succ o t interpolation turns started hformatted hquote h with hend | ⟨n, started', hpos, hn, hrest, hgo⟩
    · exact hend
    · rw [hgo, ih hrest (by rw [List.length_drop]; omega), List.length_drop, Nat.add_assoc, Nat.add_sub_cancel' hn]

end

/-! ## Line breaks -/

theorem unifyBreaks_cons (h : c ≠ '\r') : unifyBreaks (c :: s) = c :: unifyBreaks s := by
  rw [unifyBreaks.eq_def]
  split
  · next heq => exact absurd (List.cons.inj heq).1 h
  · next heq => exact absurd (List.cons.inj heq).1 h
  · next heq =>
    obtain ⟨rfl, rfl⟩ := List.cons.inj heq
    rfl
  · next heq => cases heq

example : unifyBreaks "a\r\n\r".toList = "a\n\n".toList := by cbv

theorem unifyBreaks_return (h : s.head? ≠ some '\n') : unifyBreaks ('\r' :: s) = '\n' :: unifyBreaks s := by
  rw [unifyBreaks.eq_def]
  split
  · next heq =>
    obtain ⟨-, rfl⟩ := List.cons.inj heq
    exact absurd rfl h
  · next heq =>
    obtain ⟨-, rfl⟩ := List.cons.inj heq
    rfl
  · next hne heq =>
    obtain ⟨rfl, rfl⟩ := List.cons.inj heq
    exact (hne rfl).elim
  · next heq => cases heq

theorem unifyBreaks_returned (s : List Char) : unifyBreaks ('\r' :: '\n' :: s) = '\n' :: unifyBreaks s := by
  rw [unifyBreaks]

theorem unifyBreaks_eq_cons (h : unifyBreaks s = c :: t) :
    (∃ s', s = '\r' :: '\n' :: s' ∧ c = '\n' ∧ unifyBreaks s' = t) ∨
      (∃ s', s = '\r' :: s' ∧ s'.head? ≠ some '\n' ∧ c = '\n' ∧ unifyBreaks s' = t) ∨
      ∃ s', s = c :: s' ∧ c ≠ '\r' ∧ unifyBreaks s' = t := by
  fun_cases unifyBreaks s with
  | case1 rest =>
    rw [unifyBreaks_returned] at h
    exact .inl ⟨rest, rfl, (List.cons.inj h).1.symm, (List.cons.inj h).2⟩
  | case2 rest hne =>
    have hhead : rest.head? ≠ some '\n' := by
      intro heq
      obtain ⟨rest', rfl⟩ := List.head?_eq_some_iff.mp heq
      exact hne rest' rfl
    rw [unifyBreaks_return hhead] at h
    exact .inr (.inl ⟨rest, rfl, hhead, (List.cons.inj h).1.symm, (List.cons.inj h).2⟩)
  | case3 c' rest _ hne =>
    rw [unifyBreaks_cons hne] at h
    obtain ⟨rfl, htail⟩ := List.cons.inj h
    exact .inr (.inr ⟨rest, rfl, hne, htail⟩)
  | case4 => cases h

theorem unifyBreaks_of_notMem (h : '\r' ∉ s) : unifyBreaks s = s := by
  induction s with
  | nil => rfl
  | cons c s ih =>
    rw [List.mem_cons, not_or] at h
    rw [unifyBreaks_cons (Ne.symm h.1), ih h.2]

/-- Texts are unified one by one where no line break lies across. -/
theorem unifyBreaks_append (h : s.getLast? = some '\r' → t.head? ≠ some '\n') :
    unifyBreaks (s ++ t) = unifyBreaks s ++ unifyBreaks t := by
  have hlast {c : Char} {s : List Char} (h : (c :: s).getLast? = some '\r' → t.head? ≠ some '\n') :
      s.getLast? = some '\r' → t.head? ≠ some '\n' :=
    fun hs => h (by rw [List.getLast?_cons, hs, Option.getD_some])
  fun_induction unifyBreaks s with
  | case1 rest ih =>
    rw [List.cons_append, List.cons_append, unifyBreaks_returned, ih (hlast (hlast h)), List.cons_append]
  | case2 rest hne ih =>
    have hhead : (rest ++ t).head? ≠ some '\n' := by
      cases rest with
      | nil => exact h rfl
      | cons c rest => exact fun heq => hne rest (congrArg (· :: rest) (Option.some.inj heq))
    rw [List.cons_append, unifyBreaks_return hhead, ih (hlast h), List.cons_append]
  | case3 c rest hne hne' ih =>
    rw [List.cons_append, unifyBreaks_cons fun heq => hne' heq, ih (hlast h), List.cons_append]
  | case4 => rfl

/-- What holds no line break comes from nothing else. -/
theorem exists_append_of_unifyBreaks {a : List Char} (h : unifyBreaks s = a ++ t) (ha : '\n' ∉ a) :
    ∃ s', s = a ++ s' ∧ unifyBreaks s' = t := by
  induction a generalizing s with
  | nil => exact ⟨s, rfl, h⟩
  | cons d a ih =>
    rw [List.mem_cons, not_or] at ha
    rcases unifyBreaks_eq_cons h with ⟨_, -, heq, -⟩ | ⟨_, -, -, heq, -⟩ | ⟨s, rfl, -, hs⟩
    · exact absurd heq.symm ha.1
    · exact absurd heq.symm ha.1
    · obtain ⟨s', rfl, hs'⟩ := ih hs ha.2
      exact ⟨s', rfl, hs'⟩

theorem eq_of_unifyBreaks (h : unifyBreaks s = t) (ht : '\n' ∉ t) : s = t := by
  obtain ⟨s', rfl, hs'⟩ := exists_append_of_unifyBreaks (h.trans (List.append_nil t).symm) ht
  rw [unifyBreaks.eq_def] at hs'
  split at hs'
  · cases hs'
  · cases hs'
  · cases hs'
  · exact List.append_nil t

theorem CallsName.of_unifyBreaks (h : CallsName (unifyBreaks s)) : CallsName s := by
  obtain ⟨name, rest, hne, hletters, hs⟩ := h
  have hline : '\n' ∉ '\x7b' :: (name ++ ['\x7d']) := fun hmem => by
    rw [List.mem_cons, List.mem_append, List.mem_singleton] at hmem
    exact hmem.elim (by decide) fun hmem => hmem.elim (fun hmem => absurd (hletters _ hmem) (by decide)) (by decide)
  obtain ⟨s', rfl, -⟩ := exists_append_of_unifyBreaks (a := '\x7b' :: (name ++ ['\x7d'])) (t := rest) (by simpa using hs) hline
  exact ⟨name, s', hne, hletters, by simp⟩

/-! ## What the value reader takes for the inside of a literal -/

/-- Every escape in a text that calls a character by a name goes on with a name in braces. -/
inductive WellNamed : List Char → Prop
  | nil : WellNamed []
  | escape {c : Char} {s : List Char} (hname : c = 'N' → CallsName s) (h : WellNamed s) : WellNamed ('\\' :: c :: s)
  | slash : WellNamed ['\\']
  | cons {c : Char} {s : List Char} (hc : c ≠ '\\') (h : WellNamed s) : WellNamed (c :: s)

namespace WellNamed

theorem of_cons (h : WellNamed (c :: s)) (hc : c ≠ '\\') : WellNamed s := by
  cases h with
  | escape => exact absurd rfl hc
  | slash => exact absurd rfl hc
  | cons _ h => exact h

theorem of_escape (h : WellNamed ('\\' :: c :: s)) : (c = 'N' → CallsName s) ∧ WellNamed s := by
  cases h with
  | escape hname h => exact ⟨hname, h⟩
  | cons hc => exact absurd rfl hc

/-- A text without a backslash may stand in front. -/
theorem of_drop {n : Nat} (h : WellNamed (s.drop n)) (hn : '\\' ∉ s.take n) : WellNamed s := by
  induction n generalizing s with
  | zero => exact h
  | succ n ih =>
    cases s with
    | nil => exact .nil
    | cons c s =>
      rw [List.take_succ_cons, List.mem_cons, not_or] at hn
      exact .cons (Ne.symm hn.1) (ih h hn.2)

end WellNamed

variable {body behind : List Char} {line last : Nat}

/-- Induction over a text, character by character but with an escape at once. -/
theorem escapesInduction {motive : List Char → Prop} (nil : motive [])
    (escape : ∀ c s, motive s → motive ('\\' :: c :: s))
    (cons : ∀ c s, (c = '\\' → s = []) → motive s → motive (c :: s)) : ∀ s, motive s
  | [] => nil
  | [c] => cons c [] (fun _ => rfl) nil
  | c :: d :: s =>
    if h : c = '\\' then h ▸ escape d s (escapesInduction nil escape cons s)
    else cons c (d :: s) (fun heq => absurd heq h) (escapesInduction nil escape cons (d :: s))

theorem splitBody_escape : splitBody kind line ('\\' :: c :: s) = .ok (body, behind, last) ↔
    ∃ body', splitBody kind (if c = '\n' then line + 1 else line) s = .ok (body', behind, last) ∧
      body = '\\' :: c :: body' := by
  rw [splitBody]
  constructor
  · intro h
    obtain ⟨⟨body', behind', last'⟩, hbody, heq⟩ := bind_eq_ok.mp h
    cases heq
    exact ⟨body', hbody, rfl⟩
  · rintro ⟨body', hbody, rfl⟩
    rw [hbody]
    rfl

/-- A quote closes the literal that it opened, three where three did. -/
def closes (kind : Quoting) (c : Char) (rest : List Char) : Bool :=
  c = kind.quote && (!kind.triple || rest.take 2 == [c, c])

theorem splitBody_closing (hc : c ≠ '\\') (hclose : closes kind c s = true) :
    splitBody kind line (c :: s) = .ok ([], if kind.triple then s.drop 2 else s, line) := by
  rw [splitBody, if_pos (by exact hclose)]
  exact fun _ _ heq => absurd heq hc

theorem splitBody_plain (hc : c = '\\' → s = []) (hclose : closes kind c s = false) :
    splitBody kind line (c :: s) = .ok (body, behind, last) ↔
      (c = '\n' → kind.triple = true) ∧
        ∃ body', splitBody kind (if c = '\n' then line + 1 else line) s = .ok (body', behind, last) ∧
          body = c :: body' := by
  rw [splitBody, if_neg (by exact Bool.eq_false_iff.mp hclose)]
  · by_cases hbreak : c = '\n' ∧ kind.triple = false
    · rw [if_pos (by rw [hbreak.1, hbreak.2]; rfl)]
      exact ⟨nofun, fun h => absurd (h.1 hbreak.1) (Bool.eq_false_iff.mp hbreak.2)⟩
    · rw [if_neg (by simpa using hbreak)]
      constructor
      · intro h
        obtain ⟨⟨body', behind', last'⟩, hbody, heq⟩ := bind_eq_ok.mp h
        cases heq
        exact ⟨fun heq => by simpa [heq] using hbreak, body', hbody, rfl⟩
      · rintro ⟨-, body', hbody, rfl⟩
        rw [hbody]
        rfl
  · exact fun _ _ heq hs => absurd (hc heq) (hs ▸ List.cons_ne_nil _ _)

theorem splitBody_quotes (hquote : kind.IsPlain) : splitBody kind line (kind.quotes ++ t) = .ok ([], t, line) := by
  have hslash : kind.quote ≠ '\\' := fun heq => hquote.not_mem (by rw [heq]; decide)
  cases htriple : kind.triple with
  | true =>
    rw [kind.quotes_of_triple htriple]
    refine (splitBody_closing hslash (by simp [closes])).trans ?_
    rw [if_pos htriple]
    rfl
  | false =>
    rw [kind.quotes_of_single htriple]
    refine (splitBody_closing hslash (by simp [closes, htriple])).trans ?_
    rw [if_neg (Bool.eq_false_iff.mp htriple)]
    rfl

theorem eq_quotes_of_closes (hclose : closes kind c s = true) (hs : (if kind.triple then s.drop 2 else s) = []) :
    c :: s = kind.quotes := by
  rw [closes, Bool.and_eq_true, decide_eq_true_eq, Bool.or_eq_true, Bool.not_eq_true', beq_iff_eq] at hclose
  obtain ⟨rfl, htake⟩ := hclose
  cases htriple : kind.triple with
  | true =>
    rw [if_pos htriple] at hs
    rw [← List.take_append_drop 2 s, hs, htake.resolve_left (by rw [htriple]; exact Bool.noConfusion),
      kind.quotes_of_triple htriple]
    rfl
  | false =>
    rw [if_neg (Bool.eq_false_iff.mp htriple)] at hs
    rw [hs, kind.quotes_of_single htriple]

/-- **A text from behind an opening ends with the closing quotes**, and a body stands in front of them. -/
inductive Encloses (kind : Quoting) : List Char → List Char → Prop
  | close : Encloses kind kind.quotes []
  | escape {c : Char} {rest body : List Char} (h : Encloses kind rest body) :
      Encloses kind ('\\' :: c :: rest) ('\\' :: c :: body)
  | plain {c : Char} {rest body : List Char} (hc : c ≠ '\\') (hclose : closes kind c rest = false)
      (hbreak : c = '\n' → kind.triple = true) (h : Encloses kind rest body) : Encloses kind (c :: rest) (c :: body)

theorem Encloses.length_le (h : Encloses kind s body) : kind.quotes.length ≤ s.length := by
  induction h with
  | close => exact Nat.le_refl _
  | escape _ ih => exact Nat.le_trans ih (Nat.le_add_right _ 2)
  | plain _ _ _ _ ih => exact Nat.le_succ_of_le ih

theorem Encloses.ne_nil (h : Encloses kind s body) : s ≠ [] := by
  cases h with
  | close => exact kind.quotes_ne_nil
  | escape => exact List.cons_ne_nil _ _
  | plain => exact List.cons_ne_nil _ _

theorem Encloses.eq_append (h : Encloses kind s body) : s = body ++ kind.quotes := by
  induction h with
  | close => rfl
  | escape _ ih => rw [ih, List.cons_append, List.cons_append]
  | plain _ _ _ _ ih => rw [ih, List.cons_append]

theorem encloses_of_splitBody (hquote : kind.IsPlain) (h : splitBody kind line s = .ok (body, [], last)) :
    Encloses kind s body := by
  have hslash : kind.quote ≠ '\\' := fun heq => hquote.not_mem (by rw [heq]; decide)
  induction s using escapesInduction generalizing body line with
  | nil => cases h
  | escape c s ih =>
    obtain ⟨body', hbody, rfl⟩ := splitBody_escape.mp h
    exact .escape (ih hbody)
  | cons c s hc ih =>
    cases hclose : closes kind c s with
    | true =>
      have hne : c ≠ '\\' := by
        rintro rfl
        rw [closes, Bool.and_eq_true, decide_eq_true_eq] at hclose
        exact hslash hclose.1.symm
      rw [splitBody_closing hne hclose] at h
      obtain ⟨rfl, hrest⟩ := Prod.mk.inj (Except.ok.inj h)
      exact eq_quotes_of_closes hclose (Prod.mk.inj hrest).1 ▸ .close
    | false =>
      obtain ⟨hbreak, body', hbody, rfl⟩ := (splitBody_plain hc hclose).mp h
      refine .plain (fun heq => ?_) hclose hbreak (ih hbody)
      rw [hc heq] at hbody
      cases hbody

/-- **What stands behind a literal changes nothing in it**, nor does the line it starts on. -/
theorem Encloses.splitBody (hquote : kind.IsPlain) (h : Encloses kind s body) (line : Nat) :
    ∃ last, splitBody kind line (s ++ t) = .ok (body, t, last) := by
  induction h generalizing line with
  | close => exact ⟨line, splitBody_quotes hquote⟩
  | @escape c _ _ _ ih =>
    obtain ⟨last, hlast⟩ := ih (if c = '\n' then line + 1 else line)
    exact ⟨last, splitBody_escape.mpr ⟨_, hlast, rfl⟩⟩
  | @plain c rest body hc hclose hbreak h ih =>
    obtain ⟨last, hlast⟩ := ih (if c = '\n' then line + 1 else line)
    have hclose' : closes kind c (rest ++ t) = false := by
      cases htriple : kind.triple with
      | true =>
        have hlength := h.length_le
        rw [kind.quotes_of_triple htriple] at hlength
        have htwo : 2 ≤ rest.length := Nat.le_of_succ_le hlength
        rw [closes, List.take_append_of_le_length htwo]
        exact hclose
      | false =>
        rw [closes, htriple] at hclose ⊢
        exact hclose
    exact ⟨last, (splitBody_plain (fun heq => absurd heq hc) hclose').mpr ⟨hbreak, body, hlast, rfl⟩⟩

/-- **What the value reader takes for the inside of a literal is that for the grammar**, if its escapes call
characters by names. -/
theorem Encloses.inside (hquote : kind.IsPlain) (h : Encloses kind (unifyBreaks s) body) (hzero : '\x00' ∉ s)
    (hnames : kind.raw = true ∨ kind.bytes = true ∨ WellNamed body) : Inside kind s := by
  generalize hs : unifyBreaks s = s' at h
  have hquotes := hquote.not_mem
  simp only [List.mem_cons, List.not_mem_nil, or_false, not_or] at hquotes
  obtain ⟨-, -, hqreturn, hqline⟩ := hquotes
  induction h generalizing s with
  | close =>
    rw [eq_of_unifyBreaks hs (by rw [Quoting.quotes]; split <;> simp [Ne.symm hqline])]
    exact .close
  | @escape c rest body h ih =>
    have hrest : kind.raw = true ∨ kind.bytes = true ∨ WellNamed body :=
      hnames.imp_right (·.imp_right fun hn => hn.of_escape.2)
    rcases unifyBreaks_eq_cons hs with ⟨_, -, heq, -⟩ | ⟨_, -, -, heq, -⟩ | ⟨s, rfl, -, hs⟩
    · exact absurd heq (by decide)
    · exact absurd heq (by decide)
    · rcases unifyBreaks_eq_cons hs with ⟨s, rfl, -, hs⟩ | ⟨s, rfl, hhead, -, hs⟩ | ⟨s, rfl, hc, hs⟩
      · exact .joined (ih (fun hmem => hzero (by simp [hmem])) hrest hs)
      · exact .escape (by decide) (fun heq => absurd heq (by decide)) (fun _ => hhead)
          (ih (fun hmem => hzero (by simp [hmem])) hrest hs)
      · refine .escape (fun heq => hzero ?_) (fun heq => ?_) (fun heq => absurd heq hc)
          (ih (fun hmem => hzero (by simp [hmem])) hrest hs)
        · rw [← Char.toNat_inj (c := c) (d := '\x00') |>.mp heq]
          simp
        · refine hnames.imp_right (·.imp_right fun hn => CallsName.of_unifyBreaks ?_)
          rw [hs, h.eq_append]
          exact (hn.of_escape.1 heq).append kind.quotes
  | @plain c rest body hc hclose hbreak h ih =>
    have hrest : kind.raw = true ∨ kind.bytes = true ∨ WellNamed body :=
      hnames.imp_right (·.imp_right fun hn => hn.of_cons hc)
    have hreturned {s : List Char} (h : Inside kind s) : Inside kind ('\r' :: s) :=
      .plain (by decide) (by decide) (fun heq => absurd heq.symm hqreturn) (fun heq => absurd heq (by decide)) h
    rcases unifyBreaks_eq_cons hs with ⟨s, rfl, heq, hs⟩ | ⟨s, rfl, -, heq, hs⟩ | ⟨s, rfl, hcr, hs⟩
    · exact hreturned (.plain (by decide) (by decide) (fun heq => absurd heq.symm hqline) (fun _ => hbreak heq)
        (ih (fun hmem => hzero (by simp [hmem])) hrest hs))
    · exact hreturned (ih (fun hmem => hzero (by simp [hmem])) hrest hs)
    · refine .plain hc (fun heq => hzero ?_) (fun heq => ?_) hbreak (ih (fun hmem => hzero (by simp [hmem])) hrest hs)
      · rw [← Char.toNat_inj (c := c) (d := '\x00') |>.mp heq]
        exact List.mem_cons_self
      · rw [closes, decide_eq_true heq, Bool.true_and, Bool.or_eq_false_iff, Bool.not_eq_false', beq_eq_false_iff_ne] at hclose
        refine ⟨hclose.1, fun htake => hclose.2 ?_⟩
        obtain ⟨b, rfl⟩ : ∃ b, s = [c, c] ++ b := ⟨s.drop 2, by rw [← htake, List.take_append_drop]⟩
        rw [← hs, List.cons_append, List.cons_append, unifyBreaks_cons hcr, unifyBreaks_cons hcr]
        rfl

/-! ## Values -/

/-- A known name in braces is a name, and no backslash stands in it. -/
theorem takesName [Interpreter] {named : List Char} {plain : Char}
    (hplain : Interpreter.charNamed? (String.ofList (named.takeWhile fun c => c != '\x7d')) = some plain)
    (hne : named.takeWhile (fun c => c != '\x7d') ≠ [])
    (hlength : (named.takeWhile fun c => c != '\x7d').length ≠ named.length) :
    CallsName ('\x7b' :: named) ∧
      '\\' ∉ ('\x7b' :: named).take ((named.takeWhile fun c => c != '\x7d').length + 2) := by
  have hletters := Interpreter.isNameLetter_of_charNamed? hplain
  rw [String.toList_ofList] at hletters
  have hnamed := List.takeWhile_append_dropWhile (p := fun c => c != '\x7d') (l := named)
  have hfirst := List.head?_dropWhile_not (fun c => c != '\x7d') named
  generalize named.takeWhile (fun c => c != '\x7d') = name at hletters hnamed hne hlength ⊢
  cases hrest : named.dropWhile fun c => c != '\x7d' with
  | nil =>
    rw [hrest, List.append_nil] at hnamed
    exact absurd (congrArg List.length hnamed) hlength
  | cons c rest =>
    rw [hrest] at hnamed hfirst
    obtain rfl : c = '\x7d' := by simpa using hfirst
    subst hnamed
    refine ⟨⟨name, rest, hne, hletters, rfl⟩, fun hmem => ?_⟩
    rw [List.take_succ_cons, List.take_length_add_append, List.mem_cons, List.mem_append, List.take_succ_cons,
      List.take_zero, List.mem_singleton] at hmem
    rcases hmem with heq | hmem | heq
    · exact absurd heq (by decide)
    · exact absurd (hletters _ hmem) (by decide)
    · exact absurd heq (by decide)

/-- **An escape that is read** takes no backslash with it, and one for a name takes that name. -/
theorem readEscape_eq_ok [Interpreter] {position taken width : Nat} {made : List Letter}
    (h : readEscape position (c :: s) = .ok (made, taken, width)) :
    (c = 'N' → CallsName s) ∧ 0 < taken ∧ '\\' ∉ s.take (taken - 1) := by
  have hone (hname : c ≠ 'N') (heq : taken = 1) :
      (c = 'N' → CallsName s) ∧ 0 < taken ∧ '\\' ∉ s.take (taken - 1) := by
    simp [hname, heq]
  have hrun {p : Char → Bool} {k : Nat} (hname : c ≠ 'N') (hslash : p '\\' = false) (hk : taken = k + 1)
      (hall : ∀ d ∈ s.take k, p d = true) : (c = 'N' → CallsName s) ∧ 0 < taken ∧ '\\' ∉ s.take (taken - 1) := by
    rw [hk]
    exact ⟨fun heq => absurd heq hname, Nat.succ_pos k,
      fun hmem => Bool.false_ne_true (hslash.symm.trans (hall _ hmem))⟩
  rw [readEscape.eq_def] at h
  dsimp only at h
  split at h
  · next hline =>
    cases h
    exact hone (by rw [hline]; decide) rfl
  · split at h
    · next hnamed =>
      cases h
      refine hone (fun heq => ?_) rfl
      rw [heq] at hnamed
      cases hnamed
    · next count pattern _ hhex =>
      split at h
      · cases h
      · next hdigits =>
        split at h
        · cases h
        · cases h
          refine hrun (p := isHexDigit) (fun heq => ?_) (by decide) (Nat.add_comm _ _) fun d hd => ?_
          · rw [heq] at hhex
            cases hhex
          · have hprefix := List.takeWhile_prefix isHexDigit (l := s.take count)
            rw [← hprefix.eq_of_length_le (Nat.le_trans (List.length_take_le _ _) (Nat.le_of_not_lt hdigits))] at hd
            exact List.all_eq_true.mp List.all_takeWhile d hd
    · split at h
      · next hoct =>
        cases h
        refine hrun (p := isOctDigit) (k := ((s.take 2).takeWhile isOctDigit).length) (fun heq => ?_) (by decide) ?_
          fun d hd => ?_
        · rw [heq] at hoct
          exact absurd hoct (by decide)
        · rw [octalDigits, List.take_succ_cons, List.takeWhile_cons_of_pos hoct, List.length_cons]
        · have hprefix := (List.takeWhile_prefix isOctDigit).trans (List.take_prefix 2 s)
          rw [← List.prefix_iff_eq_take.mp hprefix] at hd
          exact List.all_eq_true.mp List.all_takeWhile d hd
      · split at h
        · next hN =>
          split at h
          · next named =>
            split at h
            · cases h
            · next hlength =>
              split at h
              · cases h
              · next hne =>
                split at h
                · next plain hplain =>
                  cases h
                  obtain ⟨hcalls, hslash⟩ := takesName hplain (by simpa using hne) hlength
                  exact ⟨fun _ => hcalls, Nat.succ_pos _, hslash⟩
                · cases h
          · cases h
        · next hname =>
          split at h
          all_goals
            cases h
            exact hone hname rfl

/-- **Escapes that are read call characters by names.** -/
theorem wellNamed_of_unescape [Interpreter] {turns position : Nat} {made : List Letter}
    (h : unescape turns position s = .ok made)
    (hturns : s.length ≤ turns) : WellNamed s := by
  induction turns generalizing position s made with
  | zero => exact List.length_eq_zero_iff.mp (Nat.le_zero.mp hturns) ▸ .nil
  | succ turns ih =>
    cases s with
    | nil => exact .nil
    | cons c s =>
      rw [List.length_cons] at hturns
      by_cases hc : c = '\\'
      · rw [hc, unescape] at h
        obtain ⟨⟨escaped, taken, width⟩, hescape, h⟩ := bind_eq_ok.mp h
        obtain ⟨more, hmore, -⟩ := bind_eq_ok.mp h
        cases s with
        | nil => exact hc ▸ .slash
        | cons d s =>
          obtain ⟨hname, hpos, hslash⟩ := readEscape_eq_ok hescape
          obtain ⟨taken, rfl⟩ := Nat.exists_eq_succ_of_ne_zero (Nat.ne_of_gt hpos)
          have hrest := ih hmore (by simp at hturns ⊢; omega)
          exact hc ▸ .escape hname (.of_drop (s := s) (n := taken) hrest hslash)
      · rw [unescape] at h
        · obtain ⟨more, hmore, -⟩ := bind_eq_ok.mp h
          exact .cons hc (ih hmore (Nat.le_of_succ_le_succ hturns))
        · exact hc

theorem wellNamed_of_pieceValue [Interpreter] {piece : StringPiece} {value : Value}
    (h : pieceValue line piece = .ok value) :
    piece.kind.raw = true ∨ piece.kind.bytes = true ∨ WellNamed piece.body := by
  rw [pieceValue] at h
  dsimp only at h
  cases hraw : piece.kind.raw with
  | true => exact .inl rfl
  | false =>
    cases hbytes : piece.kind.bytes with
    | true => exact .inr (.inl rfl)
    | false =>
      refine .inr (.inr ?_)
      rw [hraw, hbytes, if_neg Bool.false_ne_true, Bool.false_or] at h
      split at h
      · next hplain =>
        rw [Bool.not_eq_true', List.contains_eq_mem, decide_eq_false_iff_not] at hplain
        exact .of_drop (n := piece.body.length) (by rw [List.drop_length]; exact .nil) (by rwa [List.take_length])
      · obtain ⟨made, hmade, -⟩ := map_eq_ok.mp h
        exact wellNamed_of_unescape (mapError_eq_ok.mp hmade) (Nat.le_refl _)

/-- **The value of a literal does not tell the lines** it is on. -/
theorem pieceValue_of_line [Interpreter] {line line' first first' last last' : Nat} {value : Value}
    (h : pieceValue line ⟨kind, body, first, last⟩ = .ok value) :
    pieceValue line' ⟨kind, body, first', last'⟩ = .ok value := by
  rw [pieceValue] at h ⊢
  dsimp only at h ⊢
  split at h
  · next hbytes =>
    rw [if_pos hbytes]
    split at h
    · cases h
    · next hascii =>
      rw [if_neg hascii]
      split at h
      · next hplain =>
        rw [if_pos hplain]
        exact h
      · next hplain =>
        rw [if_neg hplain]
        obtain ⟨bytes, hread, heq⟩ := map_eq_ok.mp h
        exact map_eq_ok.mpr ⟨bytes, mapError_eq_ok.mpr (mapError_eq_ok.mp hread), heq⟩
  · next hbytes =>
    rw [if_neg hbytes]
    split at h
    · next hplain =>
      rw [if_pos hplain]
      exact h
    · next hplain =>
      rw [if_neg hplain]
      obtain ⟨made, hread, heq⟩ := map_eq_ok.mp h
      exact map_eq_ok.mpr ⟨made, mapError_eq_ok.mpr (mapError_eq_ok.mp hread), heq⟩

/-! ## Literals -/

/-- **A text is one string literal that has a value** on its own: its closing quotes end it, and it holds no null
character. -/
structure IsLiteral [Interpreter] (text : List Char) (value : Value) : Prop where
  alone : ∃ kind inside body last, quoting? ⟨0, text⟩ = some (kind, inside) ∧
    splitBody kind 1 (unifyBreaks inside.rest) = .ok (body, [], last)
  noNull : '\x00' ∉ text
  decodes : literalValue (String.ofList text) = .ok value

/-- **What there is to a literal**: its letters and quotes, and what they enclose. -/
structure Reads [Interpreter] (text : List Char) (value : Value) (kind : Quoting) (letters rest body : List Char) :
    Prop where
  opens : Opens kind letters
  known : isKnownKind letters = true
  plain : kind.IsPlain
  single : StaysSingle kind rest
  text_eq : text = letters ++ (kind.quotes ++ rest)
  inside : Inside kind rest
  encloses : Encloses kind (unifyBreaks rest) body
  value : ∀ line first last, pieceValue line ⟨kind, body, first, last⟩ = .ok value

/-- The characters that a string literal starts with. -/
def startsLiteral (c : Char) : Bool := isQuotingLetter c || isQuote c

theorem startsLiteral_iff : startsLiteral c = true ↔
    c ∈ ['f', 'F', 'r', 'R', 'b', 'B', 'u', 'U', '"', '\'', '`'] := by
  rw [startsLiteral, Bool.or_eq_true, isQuotingLetter_iff, isQuote_iff, ← List.mem_append]
  rfl

theorem ne_of_startsLiteral (h : startsLiteral c = true) :
    c ≠ '\n' ∧ c ≠ ' ' ∧ c ≠ '\t' ∧ c ≠ '\x0c' ∧ c ≠ '#' ∧ c ≠ '\\' := by
  rw [startsLiteral_iff] at h
  fin_cases h <;> decide

theorem not_number_of_startsLiteral (h : startsLiteral c = true) : ¬ (isAsciiDigit c = true ∨ c = '.') := by
  rw [startsLiteral_iff] at h
  fin_cases h <;> decide

theorem exists_startsLiteral (h : Opens kind letters) (rest : List Char) :
    ∃ c front, letters ++ (kind.quotes ++ rest) = c :: front ∧ startsLiteral c = true := by
  cases letters with
  | nil =>
    obtain ⟨front, hfront⟩ := kind.exists_quotes_append rest
    exact ⟨kind.quote, front, hfront, by rw [startsLiteral, h.isQuote, Bool.or_true]⟩
  | cons c letters =>
    exact ⟨c, letters ++ (kind.quotes ++ rest), rfl, by rw [startsLiteral, h.isLetter c List.mem_cons_self, Bool.true_or]⟩

variable {turns : Nat}

/-- **On a line that a literal starts**, the pieces are what the literal and what stands behind it give. -/
theorem piecesOnLine_literal (h : Opens kind letters) (hsingle : StaysSingle kind s) :
    piecesOnLine (turns + 1) line (letters ++ (kind.quotes ++ s)) =
      if kind.quote = '`' || !isKnownKind letters then .ok ([], .other, line)
      else match splitBody kind line s with
        | .error last => .error ⟨.unterminated last, line⟩
        | .ok (body, behind, last) =>
          (piecesOnLine turns last behind).map fun (more, rest, end_) => (⟨kind, body, line, last⟩ :: more, rest, end_) := by
  obtain ⟨c, front, hfront, hc⟩ := exists_startsLiteral h s
  have hquoting := quoting?_of_opens (o := 0) h hsingle
  have hletters : (letters ++ (kind.quotes ++ s)).takeWhile isQuotingLetter = letters := by
    obtain ⟨rest, hrest⟩ := kind.exists_quotes_append s
    rw [hrest, takeWhile_letters h.isLetter h.isQuote]
  obtain ⟨hline, hspace, htab, hfeed, hhash, hslash⟩ := ne_of_startsLiteral hc
  rw [hfront] at hletters hquoting ⊢
  rw [piecesOnLine, if_neg hline, if_neg (by simp [hspace, htab, hfeed]), if_neg hhash, if_neg fun hs => hslash hs.1, hquoting,
    hletters]
  dsimp only
  split
  · rfl
  · cases splitBody kind line s with
    | error last => rfl
    | ok split =>
      obtain ⟨body, behind, last⟩ := split
      cases piecesOnLine turns last behind <;> rfl

/-- The letters of a literal that has a value do not tell that it is formatted. -/
theorem notMem_of_isKnownKind (h : isKnownKind letters = true) : 'f' ∉ letters ∧ 'F' ∉ letters := by
  have hlower : 'f' ∉ letters.map asciiLowerChar := by
    rw [isKnownKind, List.contains_eq_mem, decide_eq_true_eq] at h
    intro hmem
    have hstring : 'f' ∈ (String.ofList (letters.map asciiLowerChar)).toList := by rwa [String.toList_ofList]
    generalize String.ofList (letters.map asciiLowerChar) = word at h hstring
    revert word
    simp
  rw [List.mem_map, not_exists] at hlower
  exact ⟨fun hmem => hlower 'f' ⟨hmem, by decide⟩, fun hmem => hlower 'F' ⟨hmem, by decide⟩⟩

theorem Opens.formatted_eq_false (h : Opens kind letters) (hknown : isKnownKind letters = true) :
    kind.formatted = false := by
  rw [h.eq, quotingOf, Bool.or_eq_false_iff, List.contains_eq_mem, List.contains_eq_mem, decide_eq_false_iff_not,
    decide_eq_false_iff_not]
  exact notMem_of_isKnownKind hknown

theorem Opens.quote_ne_return (h : Opens kind letters) : kind.quote ≠ '\r' := by
  intro heq
  have hquote := h.isQuote
  rw [heq] at hquote
  exact absurd hquote (by decide)

theorem Opens.unifyBreaks_append (h : Opens kind letters) (rest : List Char) :
    unifyBreaks (letters ++ (kind.quotes ++ rest)) = letters ++ (kind.quotes ++ unifyBreaks rest) := by
  have hfront : '\r' ∉ letters ++ kind.quotes := by
    rw [List.mem_append, not_or]
    exact ⟨fun hmem => absurd (h.isLetter _ hmem) (by decide), fun hmem => h.quote_ne_return (Quoting.mem_quotes hmem).symm⟩
  rw [← List.append_assoc, Script.unifyBreaks_append fun heq => absurd (List.mem_of_getLast? heq) hfront,
    unifyBreaks_of_notMem hfront, List.append_assoc]

theorem StaysSingle.unifyBreaks (h : Opens kind letters) (hsingle : StaysSingle kind rest) :
    StaysSingle kind (unifyBreaks rest) := by
  intro htriple hquote htake
  refine hsingle htriple hquote ?_
  have hne : kind.quote ≠ '\n' := by
    intro heq
    have hisQuote := h.isQuote
    rw [heq] at hisQuote
    exact absurd hisQuote (by decide)
  obtain ⟨s, hs⟩ : ∃ s, Script.unifyBreaks rest = kind.quote :: kind.quote :: s :=
    ⟨(Script.unifyBreaks rest).drop 2, by rw [← List.take_append_drop 2 (Script.unifyBreaks rest), htake]; rfl⟩
  rcases unifyBreaks_eq_cons hs with ⟨_, -, heq, -⟩ | ⟨_, -, -, heq, -⟩ | ⟨rest, rfl, -, hs⟩
  · exact absurd heq hne
  · exact absurd heq hne
  · rcases unifyBreaks_eq_cons hs with ⟨_, -, heq, -⟩ | ⟨_, -, -, heq, -⟩ | ⟨rest, rfl, -, hs⟩
    · exact absurd heq hne
    · exact absurd heq hne
    · rfl

theorem piecesOnLine_nil : piecesOnLine (turns + 1) line [] = .ok ([], .textEnd, line) := by
  rw [piecesOnLine]
  exact nofun

theorem piecesValue_singleton [Interpreter] (piece : StringPiece) :
    piecesValue line [piece] = pieceValue line piece := by
  rw [piecesValue]
  cases pieceValue line piece <;> rfl

/-- A text that a literal starts is not read as a number. -/
theorem literalValue_of_startsLiteral [Interpreter] (h : startsLiteral c = true) :
    literalValue (String.ofList (c :: s)) = stringsValue (c :: s) := by
  rw [literalValue, String.toList_ofList]
  exact if_neg (not_number_of_startsLiteral h)

/-- **A text that is one literal is read as one.** -/
theorem IsLiteral.exists_reads [Interpreter] {text : List Char} {value : Value} (h : IsLiteral text value) :
    ∃ kind letters rest body, Reads text value kind letters rest body := by
  obtain ⟨⟨kind, ⟨offset, rest⟩, body, last, hquoting, hsplit⟩, hzero, hdecodes⟩ := h
  obtain ⟨letters, hopens, htext, hsingle⟩ := opens_of_quoting? hquoting
  dsimp only at hsplit htext hsingle
  obtain ⟨c, front, hfront, hc⟩ := exists_startsLiteral hopens rest
  have hvalue : stringsValue text = .ok value := by
    rwa [htext, hfront, literalValue_of_startsLiteral hc, ← hfront, ← htext] at hdecodes
  rw [stringsValue, htext, hopens.unifyBreaks_append] at hvalue
  dsimp only at hvalue
  rw [piecesOnLine_literal hopens (hsingle.unifyBreaks hopens), hsplit] at hvalue
  split at hvalue
  · cases hvalue
  · next hkind =>
    rw [Bool.or_eq_true, decide_eq_true_eq, Bool.not_eq_true', not_or, Bool.not_eq_false] at hkind
    have hplain : kind.IsPlain := by
      have hquote := isQuote_iff.mp hopens.isQuote
      simp only [List.mem_cons, List.not_mem_nil, or_false] at hquote
      rcases hquote with hq | hq | hq
      · exact .inl hq
      · exact .inr hq
      · exact absurd hq hkind.1
    have hpiece : pieceValue last ⟨kind, body, 1, last⟩ = .ok value := by
      obtain ⟨c, front, hfront, -⟩ := exists_startsLiteral hopens (unifyBreaks rest)
      dsimp only at hvalue
      rw [hfront, List.length_cons, piecesOnLine_nil] at hvalue
      obtain ⟨⟨pieces, behind, line⟩, hpieces, hvalue⟩ := bind_eq_ok.mp hvalue
      cases hpieces
      obtain ⟨value', hvalue', hend⟩ := bind_eq_ok.mp hvalue
      rw [← pure_eq_ok.mp hend, ← hvalue', piecesValue_singleton]
    have hencloses := encloses_of_splitBody hplain hsplit
    have hnull : '\x00' ∉ rest := fun hmem => hzero (by rw [htext]; simp [hmem])
    refine ⟨kind, letters, rest, body, hopens, hkind.2, hplain, hsingle, htext,
      hencloses.inside hplain hnull (wellNamed_of_pieceValue hpiece), hencloses, fun line first last' => pieceValue_of_line hpiece⟩

theorem StaysSingle.append (hsingle : StaysSingle kind s) (hs : s ≠ []) (hquote : isQuote kind.quote = true)
    (ht : ∀ c ∈ t.head?, isQuote c = false) : StaysSingle kind (s ++ t) := by
  intro htriple hne htake
  match s, hs, hsingle with
  | [c], _, _ =>
    cases t with
    | nil => cases htake
    | cons d t =>
      rw [List.cons_append, List.nil_append, List.take_succ_cons, List.take_succ_cons, List.take_zero] at htake
      obtain ⟨-, htail⟩ := List.cons.inj htake
      exact Bool.false_ne_true ((ht d rfl).symm.trans ((List.cons.inj htail).1 ▸ hquote))
  | c :: d :: s, _, hsingle => exact hsingle htriple hne htake

/-- **The grammar reads a literal in front of a text** as it stands on its own. -/
theorem IsLiteral.exists_stringLiteral [Interpreter] {text : List Char} {value : Value} (h : IsLiteral text value) :
    ∃ front, front <+: text ∧ 'f' ∉ front ∧ 'F' ∉ front ∧
      ∀ (interpolation : Cursor → Reading) (o : Nat) (t : List Char), (∀ c ∈ t.head?, isQuote c = false) →
        stringLiteral interpolation ⟨o, text ++ t⟩ =
          some (.named "string" ⟨o, o + text.length⟩ [.named "string_start" ⟨o, o + front.length⟩ []],
            ⟨o + text.length, t⟩) := by
  obtain ⟨kind, letters, rest, body, hreads⟩ := h.exists_reads
  have hletters := notMem_of_isKnownKind hreads.known
  have hquotes {c : Char} (hc : isQuote c = false) (hmem : c ∈ kind.quotes) : False := by
    rw [Quoting.mem_quotes hmem, hreads.opens.isQuote] at hc
    cases hc
  refine ⟨letters ++ kind.quotes, ⟨rest, by rw [hreads.text_eq, List.append_assoc]⟩,
    fun hmem => (List.mem_append.mp hmem).elim hletters.1 (hquotes (by decide)),
    fun hmem => (List.mem_append.mp hmem).elim hletters.2 (hquotes (by decide)), fun interpolation o t ht => ?_⟩
  have hsingle := hreads.single.append hreads.inside.ne_nil hreads.opens.isQuote ht
  have hbody {started : Bool} {o : Nat} : stringBody kind interpolation (rest ++ t).length started ⟨o, rest ++ t⟩ = _ :=
    stringBody_of_inside (hreads.opens.formatted_eq_false hreads.known) hreads.plain hreads.inside
      (by rw [List.length_append]; exact Nat.le_add_right _ _)
  rw [stringLiteral, hreads.text_eq, List.append_assoc, List.append_assoc, quoting?_of_opens hreads.opens hsingle]
  dsimp only [Option.bind_eq_bind, Option.bind_some]
  rw [hbody]
  simp only [Option.bind_some, nodeOver, List.length_append, Nat.add_assoc]
  rfl

/-- **The value reader reads a literal in front of a text** as it stands on its own. -/
theorem IsLiteral.exists_piece [Interpreter] {text : List Char} {value : Value} (h : IsLiteral text value) :
    ∃ kind body, (∀ line first last, pieceValue line ⟨kind, body, first, last⟩ = .ok value) ∧
      ∀ (turns line : Nat) (t : List Char), (∀ c ∈ t.head?, isQuote c = false) →
        ∃ last, piecesOnLine (turns + 1) line (unifyBreaks text ++ t) =
          (piecesOnLine turns last t).map fun (more, rest, end_) => (⟨kind, body, line, last⟩ :: more, rest, end_) := by
  obtain ⟨kind, letters, rest, body, hreads⟩ := h.exists_reads
  refine ⟨kind, body, hreads.value, fun turns line t ht => ?_⟩
  obtain ⟨last, hsplit⟩ := hreads.encloses.splitBody (t := t) hreads.plain line
  have hsingle : StaysSingle kind (unifyBreaks rest ++ t) :=
    (hreads.single.unifyBreaks hreads.opens).append hreads.encloses.ne_nil hreads.opens.isQuote ht
  have hquote : kind.quote ≠ '`' := by
    intro heq
    have hplain := hreads.plain
    rw [Quoting.IsPlain, heq] at hplain
    revert hplain
    decide
  refine ⟨last, ?_⟩
  rw [hreads.text_eq, hreads.opens.unifyBreaks_append, List.append_assoc, List.append_assoc,
    piecesOnLine_literal hreads.opens hsingle, hsplit, if_neg (by simp [hquote, hreads.known])]

/-- A literal is letters, a quote, and more. -/
theorem IsLiteral.exists_letters [Interpreter] {text : List Char} {value : Value} (h : IsLiteral text value) :
    ∃ letters quote rest, text = letters ++ quote :: rest ∧ (∀ c ∈ letters, isQuotingLetter c = true) ∧
      isQuote quote = true := by
  obtain ⟨kind, letters, inside, body, hreads⟩ := h.exists_reads
  obtain ⟨rest, hrest⟩ := kind.exists_quotes_append inside
  exact ⟨letters, kind.quote, rest, by rw [hreads.text_eq, hrest], hreads.opens.isLetter, hreads.opens.isQuote⟩

theorem IsLiteral.exists_startsLiteral [Interpreter] {text : List Char} {value : Value} (h : IsLiteral text value) :
    ∃ c rest, text = c :: rest ∧ startsLiteral c = true := by
  obtain ⟨kind, letters, inside, body, hreads⟩ := h.exists_reads
  rw [hreads.text_eq]
  exact Script.exists_startsLiteral hreads.opens inside

theorem IsLiteral.exists_unifyBreaks [Interpreter] {text : List Char} {value : Value} (h : IsLiteral text value) :
    ∃ c rest, Script.unifyBreaks text = c :: rest ∧ startsLiteral c = true := by
  obtain ⟨kind, letters, inside, body, hreads⟩ := h.exists_reads
  rw [hreads.text_eq, hreads.opens.unifyBreaks_append]
  exact Script.exists_startsLiteral hreads.opens _

/-- No line break lies across the end of a literal. -/
theorem IsLiteral.unifyBreaks_append [Interpreter] {text : List Char} {value : Value} (h : IsLiteral text value) :
    unifyBreaks (text ++ t) = unifyBreaks text ++ unifyBreaks t := by
  obtain ⟨kind, letters, inside, body, hreads⟩ := h.exists_reads
  refine Script.unifyBreaks_append fun heq => ?_
  rw [hreads.text_eq, ← List.append_assoc, List.getLast?_append, hreads.inside.getLast?_eq, Option.some_or] at heq
  exact absurd (Option.some.inj heq) hreads.opens.quote_ne_return

end SlotEdit.Script
