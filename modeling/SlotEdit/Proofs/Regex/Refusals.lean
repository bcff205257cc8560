import SlotEdit.Proofs.Regex.SafeReaders
import SlotEdit.Regex.Finder

/-!
# Proofs/Regex/Refusals — what a pattern that is refused has in it

All readers of expressions are safe, so a pattern that is not malformed is refused only for a count, a
switch or a depth that stands in it (`Expression.foreseen_of_ofText`).  A finder that is given patterns one
after another is the finder of the last one that was accepted (`Finder.setPattern_keeps`).
-/

namespace SlotEdit.Regex

variable {α β : Type} {s s' : Reading} {text : List Char} {flags : Flags} {k : Nat} {b : List Char}

section

variable [Interpreter]

/-! ## Switches -/

theorem safe_refuseFlag {Q : α → List Char → Prop} (missing : Cause) (found : Option Glyph) :
    Safe text flags k b (refuseFlag missing found) Q := by
  unfold refuseFlag
  split <;> exact .refuse

/-- **Switches that are turned on** have just been passed, with what ends them. -/
theorem safe_flagsOn (front letters : List Char) {on : Flags} (turns : Nat) (letter : Char)
    (hletters : ∀ c ∈ letters, isFlagLetter c = true) (hon : ∀ f ∈ on, ∃ c ∈ letters, flagOf? c = some f) :
    Safe text flags k (front ++ letters ++ [letter]) (flagsOn turns letter on) fun r b' => ∃ letters',
      (∀ c ∈ letters', isFlagLetter c = true) ∧ (∀ f ∈ r.1, ∃ c ∈ letters', flagOf? c = some f) ∧
        b' = front ++ letters' ++ [r.2] := by
  induction turns generalizing letter on letters with
  | zero => exact .refuse
  | succ turns ih =>
    unfold flagsOn
    cases hflag : flagOf? letter with
    | none => exact .refuse
    | some flag =>
    have hletters' : ∀ c ∈ letters ++ [letter], isFlagLetter c = true :=
      List.forall_mem_append.mpr ⟨hletters, List.forall_mem_singleton.mpr (isFlagLetter_of_flagOf? hflag)⟩
    have hon' : ∀ f ∈ on ++ [flag], ∃ c ∈ letters ++ [letter], flagOf? c = some f := by
      refine List.forall_mem_append.mpr ⟨fun f hf => ?_, List.forall_mem_singleton.mpr ⟨letter, by simp, hflag⟩⟩
      obtain ⟨c, hc, heq⟩ := hon f hf
      exact ⟨c, List.mem_append_left _ hc, heq⟩
    dsimp only
    split
    · exact .refuse
    · refine safe_take.bind fun x b' hb' => ?_
      split
      · next c =>
        obtain rfl := hb' _ rfl
        rw [Glyph.toList_text_plain, List.append_assoc front]
        split
        · exact .pure ⟨_, hletters', hon', rfl⟩
        · split
          · exact ih _ c hletters' hon'
          · exact safe_refuseFlag _ _
      · exact safe_refuseFlag _ _

theorem fair_flagsOff (turns : Nat) (letter : Char) (off : Flags) : Fair text flags k (flagsOff turns letter off) := by
  induction turns generalizing letter off with
  | zero => exact .refuse
  | succ turns ih =>
    unfold flagsOff
    cases flagOf? letter with
    | none => exact .refuse
    | some flag =>
    dsimp only
    split
    · exact .refuse
    · refine .bind fair_take fun x => ?_
      split
      · split
        · exact .pure
        · split
          · exact ih _ _
          · exact ⟨safe_refuseFlag _ _⟩
      · exact ⟨safe_refuseFlag _ _⟩

theorem fair_flagsRemoved : Fair text flags k flagsRemoved := by
  unfold flagsRemoved
  refine .bind fair_take fun x => ?_
  split
  · split
    · exact .get_bind fun _ _ => fair_flagsOff ..
    · exact ⟨safe_refuseFlag _ _⟩
  · exact ⟨safe_refuseFlag _ _⟩

/-- Switches for the whole expression stand in it. -/
theorem safe_inlineFlagsBefore (letters : List Char) {added : Flags} (stop : Char)
    (hletters : ∀ c ∈ letters, isFlagLetter c = true) (hadded : ∀ f ∈ added, ∃ c ∈ letters, flagOf? c = some f) :
    Safe text flags k (['(', '?'] ++ letters ++ [stop]) (inlineFlagsBefore added stop) fun _ _ => True := by
  unfold inlineFlagsBefore
  split
  · next hstop =>
    subst hstop
    refine fun s hs => .step_bind (show _ = Except.ok ((), { s with flags := s.flags ++ added }) from rfl) (Safe.pure (b := []) trivial _ ?_)
    refine ⟨hs.forget.suffix, hs.depth, List.forall_mem_append.mpr ⟨hs.flags, fun f hf => .inr ?_⟩⟩
    exact ⟨letters, hletters, hadded f hf, hs.passed_infix⟩
  · have hgroup (removed : Flags) : Fair text flags k (if removed.any Flag.isGlobal then refuse .globalFlagOff 1
        else if added.any removed.contains then refuse .flagOnAndOff 1 else pure (InlineFlags.inGroup added removed)) := by
      split
      · exact .refuse
      · split
        · exact .refuse
        · exact .pure
    split
    · exact .refuse
    · dsimp only
      split
      · exact (fair_flagsRemoved.bind hgroup).safe
      · exact (hgroup []).safe

theorem safe_inlineFlags (first : Char) :
    Safe text flags k ['(', '?', first] (inlineFlags first) fun _ _ => True := by
  unfold inlineFlags
  split
  · next hfirst =>
    subst hfirst
    exact safe_inlineFlagsBefore [] '-' (List.forall_mem_nil _) (List.forall_mem_nil _)
  · refine .get_bind fun s hs => (safe_flagsOn ['(', '?'] [] _ first (List.forall_mem_nil _)
      (List.forall_mem_nil _)).bind ?_
    rintro ⟨added, stop⟩ b' ⟨letters, hletters, hadded, rfl⟩
    exact safe_inlineFlagsBefore letters stop hletters hadded

/-! ## Counts -/

theorem Safe.of_infix_text {m : Reader α} {Q : α → List Char → Prop} (h : b <:+: text → Safe text flags k b m Q) :
    Safe text flags k b m Q := fun s hs => h hs.passed_infix s hs

theorem fair_count {digits : List Char} (h : CountIn text digits) (hne : digits ≠ []) : Fair text flags k (count digits) := by
  unfold count
  rw [readInt_ofList h.1 hne, integerOfDigits]
  split
  · next n hn =>
    split at hn
    · cases hn
    · obtain rfl := Except.ok.inj hn
      simp only [Bool.false_eq_true, if_false, Int.toNat_natCast]
      split
      · next hlarge => exact ⟨fun _ _ => .throw (.countTooLarge h hlarge)⟩
      · exact .pure
  · next fault hfault =>
    split at hfault
    · next hlong => exact ⟨fun _ _ => .throw (.unreadableCount fault h hlong)⟩
    · cases hfault

theorem fair_countsOf {low high : List Char} (here : Nat) (hlow : low ≠ [] → CountIn text low)
    (hhigh : high ≠ [] → CountIn text high) : Fair text flags k (countsOf here low high) := by
  have hmost (least : Nat) : Fair text flags k (if high.isEmpty then pure (least, none)
      else count high >>= fun most =>
        if most < least then refuseAt .leastAboveMost here else pure (least, some most)) := by
    split
    · exact .pure
    · next hne =>
      have hne : high ≠ [] := mt List.isEmpty_iff.mpr hne
      refine .bind (fair_count (hhigh hne) hne) fun most => ?_
      split
      · exact .refuseAt
      · exact .pure
  unfold countsOf
  dsimp only
  split
  · exact .bind .pure hmost
  · next hne =>
    have hne : low ≠ [] := mt List.isEmpty_iff.mpr hne
    exact .bind (fair_count (hlow hne) hne) hmost

/-- The digits of the larger count have just been passed, or they are those of the smaller one. -/
theorem safe_digitsOfMost (low : List Char) (turns : Nat) : Safe text flags k b (digitsOfMost low turns) fun high b' =>
    (high = low ∧ b' = b) ∨ ((∀ c ∈ high, isAsciiDigit c = true) ∧ b' = b ++ ',' :: high) := by
  unfold digitsOfMost
  refine (safe_accept ',').bind fun accepted b' hb' => ?_
  subst hb'
  cases accepted with
  | false => exact .pure (.inl ⟨rfl, List.append_nil b⟩)
  | true =>
    refine fun s hs => ?_
    have hrun := safe_takeWhile isAsciiDigit turns s hs
    refine ⟨fun hok => ?_, hrun.error⟩
    obtain ⟨b', ⟨hdigits, rfl⟩, hs'⟩ := hrun.ok hok
    exact ⟨_, .inr ⟨hdigits, rfl⟩, by simpa using hs'⟩

/-- **The digits of counts in braces** stand in the text where counts are written. -/
theorem safe_bracedCounts : Safe text flags k ['\x7b'] bracedCounts fun _ _ => True := by
  unfold bracedCounts
  refine .get_bind fun before hbefore => .bind (.of_looks fun _ => rfl) ?_
  rintro here b' rfl
  refine (safe_isNext _).bind ?_
  rintro closes b' rfl
  split
  · exact .pure trivial
  refine (safe_takeWhile isAsciiDigit _).bind ?_
  rintro low b' ⟨hlow, rfl⟩
  refine (safe_digitsOfMost low _).bind fun high b' hhigh => ?_
  refine (safe_accept '\x7d').bind ?_
  rintro accepted b'' rfl
  cases accepted with
  | false => exact (Fair.bind (.set hbefore.forget) fun _ => .pure).safe
  | true =>
    refine .of_infix_text fun hinfix => ?_
    rcases hhigh with ⟨rfl, rfl⟩ | ⟨hhigh, rfl⟩
    · have hcount : CountIn text high := ⟨hlow, '\x7b', '\x7d', .inl rfl, .inr rfl, by simpa using hinfix⟩
      exact (Fair.map (fair_countsOf here (fun _ => hcount) fun _ => hcount)).safe
    · refine (Fair.map (fair_countsOf here (fun _ => ?_) fun _ => ?_)).safe
      · refine ⟨hlow, '\x7b', ',', .inl rfl, .inl rfl, List.IsInfix.trans ?_ hinfix⟩
        exact ⟨[], high ++ ['\x7d'], by simp⟩
      · refine ⟨hhigh, ',', '\x7d', .inr rfl, .inr rfl, List.IsInfix.trans ?_ hinfix⟩
        exact ⟨'\x7b' :: low, [], by simp⟩

theorem safe_counts? (c : Char) : Safe text flags k [c] (counts? c) fun _ _ => True := by
  unfold counts?
  split
  iterate 3 exact .pure trivial
  · exact safe_bracedCounts
  · exact .pure trivial

theorem fair_eagernessMark : Fair text flags k eagernessMark := by
  unfold eagernessMark
  refine .bind (fair_accept _) fun accepted => ?_
  split
  · exact .pure
  · refine .bind (fair_accept _) fun accepted => ?_
    split
    · exact .pure
    · exact .pure

theorem fair_repetition (here : Nat) (item : Option Term) (least : Nat) (most : Option Nat) :
    Fair text flags k (repetition here item least most) := by
  unfold repetition
  split
  iterate 3 exact .refuseAt
  · exact .bind fair_eagernessMark fun _ => .pure

/-! ## Groups -/

theorem fair_closing (start : Nat) : Fair text flags k (closing start) := by
  unfold closing
  refine .bind (fair_accept _) fun accepted => ?_
  split
  · exact .pure
  · exact .refuseAt

theorem fair_comment (start turns : Nat) : Fair text flags k (comment start turns) := by
  induction turns with
  | zero => exact .refuseAt
  | succ turns ih =>
    unfold comment
    refine .bind fair_peek fun x => ?_
    split
    · exact .refuseAt
    · refine .bind fair_take fun _ => ?_
      split
      · exact .pure
      · exact ih

theorem fair_namedGroup (n : String) : Fair text flags k (namedGroup n) := by
  unfold namedGroup
  refine .get_bind fun s hs => ?_
  split
  · exact .pure
  · exact .refuse

theorem fair_namedReference : Fair text flags k namedReference := by
  unfold namedReference
  refine .bind (fair_name ..) fun n => .bind (fair_checkName n) fun _ => .bind (fair_namedGroup n) fun index => ?_
  refine .bind (fair_isClosed index) fun closed => ?_
  split
  · exact .bind (fair_checkLookBehind index) fun _ => .pure
  · exact .refuse

theorem fair_numberedGroup (n : String) : Fair text flags k (numberedGroup n) := by
  unfold numberedGroup
  split
  · split
    · exact .refuse
    split
    · exact .refuse
    dsimp only
    split
    · exact .refuse
    · refine .bind (.looks fun _ => rfl) fun here => .bind (.modify fun s hs => ?_) fun _ => .pure
      split
      · exact hs
      · exact hs.congr rfl rfl
  · exact .refuse

theorem fair_conditionGroup (n : String) : Fair text flags k (conditionGroup n) := by
  unfold conditionGroup
  split
  · exact fair_namedGroup n
  · exact fair_numberedGroup n

theorem fair_openGroup (name : Option String) : Fair text flags k (openGroup name) := by
  unfold openGroup
  refine .get_bind fun s hs => ?_
  cases name with
  | none => exact .bind (.set (hs.congr rfl rfl)) fun _ => .pure
  | some n =>
    dsimp only
    split
    · exact .refuse
    · exact .bind (.set (hs.congr rfl rfl)) fun _ => .pure

theorem fair_closeGroup (index : Nat) (body : Term) : Fair text flags k (closeGroup index body) :=
  .modify fun _ hs => hs.congr rfl rfl

/-- The readers of what is nested are fair. -/
structure FairReaders (text : List Char) (flags : Flags) (k : Nat) (inner : Readers) : Prop where
  branches : ∀ verbose, Fair text flags k (inner.branches verbose)
  sequence : ∀ verbose, Fair text flags k (inner.sequence verbose)

section

variable {inner : Readers} (hinner : FairReaders text flags k inner) (verbose : Bool) (start : Nat)

include hinner

theorem fair_lookAround (behind negated : Bool) : Fair text flags k (lookAround inner verbose start behind negated) := by
  have hgroups (groups : Reading → Option Nat) :
      Fair text flags k (modify fun s => { s with lookBehindGroups := groups s }) := .modify fun _ hs => hs.congr rfl rfl
  unfold lookAround
  refine .get_bind fun s hs => ?_
  by_cases houter : (behind && s.lookBehindGroups.isNone) = true
  · dsimp only
    rw [if_pos houter]
    refine .bind (hgroups fun s => some s.widths.size) fun _ => .bind (hinner.branches verbose) fun body => ?_
    rw [if_pos houter]
    exact .bind (hgroups fun _ => none) fun _ => .bind (fair_closing start) fun _ => .pure
  · dsimp only
    rw [if_neg houter]
    refine .bind (hinner.branches verbose) fun body => ?_
    rw [if_neg houter]
    exact .bind (fair_closing start) fun _ => .pure

theorem fair_absentBranch : Fair text flags k (absentBranch inner verbose) := by
  unfold absentBranch
  refine .bind (fair_accept _) fun accepted => ?_
  split
  · refine .bind (hinner.sequence verbose) fun absent => .bind (fair_isNext _) fun more => ?_
    split
    · exact .refuse
    · exact .pure
  · exact .pure

theorem fair_conditionalGroup : Fair text flags k (conditionalGroup inner verbose start) :=
  .bind (fair_name ..) fun n => .bind (fair_conditionGroup n) fun index => .bind (fair_checkLookBehind index) fun _ =>
    .bind (hinner.sequence verbose) fun _ => .bind (fair_absentBranch hinner verbose) fun _ =>
      .bind (fair_closing start) fun _ => .pure

theorem fair_groupBody (index : Option Nat) (added removed : Flags) :
    Fair text flags k (groupBody inner verbose start index added removed) := by
  unfold groupBody
  refine .bind (hinner.branches _) fun body => .bind (fair_closing start) fun _ => ?_
  split
  · exact .bind (fair_closeGroup ..) fun _ => .pure
  · exact .bind .pure fun _ => .pure

theorem fair_capturing (name : Option String) : Fair text flags k (capturing inner verbose start name) :=
  .bind (fair_openGroup name) fun index => fair_groupBody hinner verbose start (some index) [] []

theorem fair_namedForm : Fair text flags k (namedForm inner verbose start) := by
  unfold namedForm
  refine .bind (fair_accept _) fun accepted => ?_
  split
  · exact .bind (fair_name ..) fun n => .bind (fair_checkName n) fun _ => .map (fair_capturing hinner verbose start _)
  · refine .bind (fair_accept _) fun accepted => ?_
    split
    · exact .map fair_namedReference
    · refine .bind fair_take fun x => ?_
      split <;> exact .refuse

theorem fair_lookBehindForm : Fair text flags k (lookBehindForm inner verbose start) := by
  unfold lookBehindForm
  refine .bind fair_take fun x => ?_
  split
  · exact .refuse
  · exact .map (fair_lookAround hinner ..)
  · exact .map (fair_lookAround hinner ..)
  · exact .refuse

theorem safe_extension : Safe text flags k ['(', '?'] (extension inner verbose start) fun _ _ => True := by
  unfold extension
  refine safe_take.bind fun x b' hb' => ?_
  split
  · exact .refuse
  · exact (fair_namedForm hinner verbose start).safe
  · exact (Fair.map (fair_groupBody hinner ..)).safe
  · exact (Fair.get_bind fun _ _ => .bind (fair_comment ..) fun _ => .pure).safe
  · exact (Fair.map (fair_lookAround hinner ..)).safe
  · exact (Fair.map (fair_lookAround hinner ..)).safe
  · exact (fair_lookBehindForm hinner verbose start).safe
  · exact (Fair.map (fair_conditionalGroup hinner ..)).safe
  · exact (Fair.bind (hinner.branches verbose) fun _ => .bind (fair_closing start) fun _ => .pure).safe
  · split
    · obtain rfl := hb' _ rfl
      rw [Glyph.toList_text_plain]
      split
      · refine (safe_inlineFlags _).bind fun switches b' _ => ?_
        split
        · exact .pure trivial
        · exact (Fair.map (fair_groupBody hinner ..)).safe
      · exact .refuse
    · exact .refuse

theorem safe_opening : Safe text flags k ['('] (opening inner verbose start) fun _ _ => True := by
  unfold opening
  refine (safe_accept '?').bind ?_
  rintro accepted b' rfl
  cases accepted with
  | true => exact safe_extension hinner verbose start
  | false => exact (Fair.map (fair_capturing hinner verbose start none)).safe

end

/-! ## Sequences -/

theorem fair_skipLine (turns : Nat) : Fair text flags k (skipLine turns) := by
  induction turns with
  | zero => exact .pure
  | succ turns ih =>
    unfold skipLine
    refine .bind fair_take fun x => ?_
    split
    · exact .pure
    · split
      · exact .pure
      · exact ih

theorem safe_itemsBehind {inner : Readers} (outermost verbose : Bool) (here : Nat) (soFar : List Term) (glyph : Glyph)
    (hinner : glyph = .plain '(' → FairReaders text flags k inner) :
    Safe text flags k glyph.text.toList (itemsBehind inner outermost verbose here soFar glyph) fun _ _ => True := by
  unfold itemsBehind
  split
  · exact (Fair.bind (fair_expressionEscape _) fun _ => .pure).safe
  · exact .pure trivial
  · next c =>
    rw [Glyph.toList_text_plain]
    split
    · exact .pure trivial
    split
    · exact (Fair.get_bind fun _ _ => .bind (fair_skipLine _) fun _ => .pure).safe
    split
    · exact (Fair.bind (fair_characterSet here) fun _ => .pure).safe
    split
    · next hopen =>
      subst hopen
      refine (safe_opening (hinner rfl) verbose here).bind fun result b' _ => ?_
      split
      · exact .pure trivial
      · exact .pure trivial
      · split
        · exact .refuseAt
        · exact (Fair.get_bind fun _ _ => .pure).safe
    iterate 3 split; exact .pure trivial
    refine (safe_counts? c).bind fun counts b' _ => ?_
    split
    · exact (Fair.bind (fair_repetition ..) fun _ => .pure).safe
    · exact .pure trivial

theorem SafeAt.lower {m : Reader α} {Q : α → List Char → Prop} (h : SafeAt text flags (k + 1) s m Q) :
    SafeAt text flags k s m Q :=
  ⟨fun hm => (h.ok hm).imp fun _ h => ⟨h.1, h.2.lower⟩, h.error⟩

/-- Behind an opening parenthesis what is read is one level deeper. -/
theorem SafeAt.take_open_bind {m : Reader α} (hs : s.Stage text flags k []) (hopen : s.glyphs.head? = some (.plain '('))
    (h : Safe text flags (k + 1) ['('] m fun _ _ => True) : SafeAt text flags k s (take >>= fun _ => m) fun _ _ => True := by
  have hat : SafeAt text flags (k + 1) s take fun _ b' => b' = ['('] := by
    refine ⟨fun {x s'} htake => ?_, foreseen_of_take⟩
    obtain rfl : x = some (.plain '(') := (take_eq_ok.mp htake).1.trans hopen
    exact ⟨_, rfl, (hs.of_take htake).2 rfl⟩
  refine (hat.bind ?_).lower
  rintro x b' rfl
  exact h

section

variable {inner : Readers} (hinner : FairReaders text flags (k + 1) inner) (outermost : Bool)

include hinner

theorem fair_items (turns : Nat) (verbose : Bool) (soFar : List Term) :
    Fair text flags k (items inner outermost turns verbose soFar) := by
  induction turns generalizing verbose soFar with
  | zero => exact .pure
  | succ turns ih =>
    unfold items
    refine ⟨fun s hs => .peek_bind ?_⟩
    split
    · exact Safe.pure trivial s hs
    · next glyph hhead =>
      split
      · exact Safe.pure trivial s hs
      refine .step_bind (m := tell) rfl ?_
      rw [← bind_assoc]
      refine SafeAt.bind (Q := fun _ _ => True) ?_ fun r _ _ => (ih r.1 r.2).safe
      by_cases hopen : glyph = .plain '('
      · exact .take_open_bind hs (hopen ▸ hhead) (hopen ▸ safe_itemsBehind outermost verbose _ soFar glyph fun _ => hinner)
      · exact .take_bind hs hhead (safe_itemsBehind outermost verbose _ soFar glyph fun h => absurd h hopen)

theorem fair_sequence (verbose : Bool) : Fair text flags k (sequence inner outermost verbose) :=
  .get_bind fun _ _ => .bind (fair_items hinner ..) fun _ => .pure

theorem fair_branches (turns : Nat) (verbose first : Bool) :
    Fair text flags k (branches inner outermost turns verbose first) := by
  induction turns generalizing verbose first with
  | zero =>
    unfold branches
    refine .bind (fair_sequence hinner ..) fun t => .bind (fair_accept _) fun accepted => ?_
    split <;> exact .pure
  | succ turns ih =>
    unfold branches
    refine .bind (fair_sequence hinner ..) fun t => .bind (fair_accept _) fun accepted => ?_
    split
    · exact .get_bind fun _ _ => .bind (ih ..) fun _ => .pure
    · exact .pure

theorem fair_choice (verbose : Bool) : Fair text flags k (choice inner outermost verbose) :=
  .get_bind fun _ _ => .bind (fair_branches hinner ..) fun _ => .pure

end

/-- **The readers of what is nested** are fair, as deep in the text as they are left to read. -/
theorem fairReaders_readersTo {depth : Nat} (hdepth : k + depth = nestingLimit + 1) :
    FairReaders text flags k (readersTo depth) := by
  induction depth generalizing k with
  | zero =>
    have hdeep : Fair text flags k (throw .tooDeep : Reader Term) :=
      ⟨fun s hs => .throw (.tooDeep (by have := hs.depth; omega))⟩
    exact ⟨fun _ => hdeep, fun _ => hdeep⟩
  | succ depth ih =>
    have hinner : FairReaders text flags (k + 1) (readersTo depth) := ih (by omega)
    exact ⟨fun verbose => fair_choice hinner false verbose, fun verbose => fair_sequence hinner false verbose⟩

/-! ## Whole expressions -/

theorem fair_expressionOf (term : Term) : Fair text flags k (expressionOf term) := by
  unfold expressionOf
  refine .get_bind fun s hs => ?_
  split
  · next hboth =>
    obtain ⟨hascii, hunicode⟩ := Bool.and_eq_true_iff.mp hboth
    exact ⟨fun _ _ => .throw (.incompatibleFlags (hs.flags _ (List.contains_iff_mem.mp hascii))
      (hs.flags _ (List.contains_iff_mem.mp hunicode)))⟩
  · refine .bind fair_peek fun x => ?_
    split
    · exact .refuse
    · split
      · exact .refuseAt
      · exact .pure

theorem fair_wholeExpression : Fair text flags 0 wholeExpression :=
  .bind fair_checkNext fun _ => .get_bind fun _ _ =>
    .bind (fair_choice (fairReaders_readersTo (Nat.add_comm ..)) true _) fair_expressionOf

/-- **A text that is no regular expression** is malformed or has in it what passes a limit. -/
theorem Expression.foreseen_of_ofText {text : String} {fault : Fault} (h : Expression.ofText text flags = .error fault) :
    fault.Foreseen text.toList flags := by
  rcases SlotEdit.bind_eq_error.mp h with h | ⟨⟨e, s⟩, -, h⟩
  · exact (fair_wholeExpression.anywhere _ (stage_start text.toList flags)).error h
  · dsimp only at h
    split at h
    · exact Except.error.inj h ▸ .malformed _ _
    · cases h

end

namespace Finder

/-! ## Patterns set one after another -/

variable {f start : Finder} {first pattern : String}

/-- **A pattern that is refused** is malformed or has in its long spelling what passes a limit. -/
theorem foreseen_of_ofPattern [Interpreter] {fault : PatternFault} (h : ofPattern pattern flags = .error fault) :
    fault.pattern = pattern ∧ fault.fault.Foreseen (expandAliases pattern.toList) flags := by
  rcases SlotEdit.bind_eq_error.mp h with h | ⟨e, -, h⟩
  · unfold compile at h
    split at h
    · cases h
    · next hfault =>
      obtain rfl := Except.error.inj h
      have hforeseen := Expression.foreseen_of_ofText hfault
      rw [String.toList_ofList] at hforeseen
      exact ⟨rfl, hforeseen⟩
  · cases h

/-- The expression of another pattern is taken over, if there is one, and then the text it was written as. -/
def adopt (pattern : String) (compiled : Except PatternFault Expression) : ExceptT PatternFault (StateM Finder) Unit := do
  let e ← ExceptT.mk (pure compiled)
  modify fun f => { f with expression := e }
  modify fun f => { f with pattern := pattern }

/-- Another pattern is set, under the switches there are. -/
def setPattern [Interpreter] (pattern : String) : ExceptT PatternFault (StateM Finder) Unit := do
  adopt pattern (compile pattern (← get).flags)

/-- **A pattern that is set**: its finder takes the place of the one before, or nothing happens. -/
theorem run_setPattern [Interpreter] (f : Finder) (pattern : String) : (setPattern pattern).run.run f =
    match f.withPattern pattern with
    | .ok f' => (.ok (), f')
    | .error fault => (.error fault, f) := by
  change (adopt pattern (compile pattern f.flags)).run.run f = _
  rw [withPattern, ofPattern]
  cases compile pattern f.flags <;> rfl

/-- A finder behind patterns that are set, accepted or not. -/
def afterSets [Interpreter] (f : Finder) (patterns : List String) : Finder :=
  patterns.foldl (fun f pattern => ((setPattern pattern).run.run f).2) f

/-- A pattern that has a finder. -/
def accepts [Interpreter] (flags : Flags) (pattern : String) : Bool := (ofPattern pattern flags).isOk

theorem flags_of_ofPattern [Interpreter] (h : ofPattern pattern flags = .ok f) : f.flags = flags := by
  obtain ⟨e, -, h⟩ := SlotEdit.bind_eq_ok.mp h
  exact pure_eq_ok.mp h ▸ rfl

theorem pattern_of_ofPattern [Interpreter] (h : ofPattern pattern flags = .ok f) : f.pattern = pattern := by
  obtain ⟨e, -, h⟩ := SlotEdit.bind_eq_ok.mp h
  exact pure_eq_ok.mp h ▸ rfl

theorem afterSets_concat [Interpreter] (start : Finder) (patterns : List String) (pattern : String) :
    start.afterSets (patterns ++ [pattern]) = ((setPattern pattern).run.run (start.afterSets patterns)).2 := by
  rw [afterSets, List.foldl_append]
  rfl

/-- **Behind patterns that are set**, a finder is that of the last one that was accepted. -/
theorem ofPattern_afterSets [Interpreter] (hstart : ofPattern first flags = .ok start) (patterns : List String) :
    ofPattern (start.afterSets patterns).pattern flags = .ok (start.afterSets patterns) ∧
      (first :: patterns).reverse.find? (accepts flags) = some (start.afterSets patterns).pattern := by
  induction patterns using List.reverseRecOn with
  | nil =>
    have haccepts : accepts flags first = true := by rw [accepts, hstart]; rfl
    rw [show start.afterSets [] = start from rfl, pattern_of_ofPattern hstart]
    exact ⟨hstart, List.find?_cons_of_pos haccepts⟩
  | append_singleton patterns pattern ih =>
    obtain ⟨hlast, hfind⟩ := ih
    rw [afterSets_concat, run_setPattern, withPattern, flags_of_ofPattern hlast, ← List.cons_append, List.reverse_append,
      List.reverse_singleton, List.singleton_append]
    cases h : ofPattern pattern flags with
    | ok f' =>
      have haccepts : accepts flags pattern = true := by rw [accepts, h]; rfl
      rw [List.find?_cons_of_pos haccepts, pattern_of_ofPattern h]
      exact ⟨h, rfl⟩
    | error fault =>
      have hrefuses : ¬accepts flags pattern = true := by rw [accepts, h]; exact Bool.false_ne_true
      rw [List.find?_cons_of_neg hrefuses]
      exact ⟨hlast, hfind⟩

/-- **Patterns are refused for a reason, and in one piece.**  A pattern that has no finder under some switches is
malformed, or has in its long spelling a count or a nesting past the limits or a switch that excludes another one.
However many patterns are set on a finder, it is the finder of the last one that was accepted; the next one
takes its place or, refused for such a reason, leaves its pattern, its groups and its matches as they are. -/
theorem refused_for_reason [Interpreter] (flags : Flags) :
    (∀ pattern fault, ofPattern pattern flags = .error fault →
      fault.pattern = pattern ∧ fault.fault.Foreseen (expandAliases pattern.toList) flags) ∧
    ∀ first start, ofPattern first flags = .ok start → ∀ patterns,
      let f := start.afterSets patterns
      (first :: patterns).reverse.find? (accepts flags) = some f.pattern ∧ ofPattern f.pattern flags = .ok f ∧
      ∀ pattern, (∃ f', ofPattern pattern flags = .ok f' ∧ (setPattern pattern).run.run f = (.ok (), f')) ∨
        ∃ fault, fault.pattern = pattern ∧ fault.fault.Foreseen (expandAliases pattern.toList) flags ∧
          (setPattern pattern).run.run f = (.error fault, f) := by
  refine ⟨fun pattern fault => foreseen_of_ofPattern, ?_⟩
  intro first start hstart patterns f
  obtain ⟨hlast, hfind⟩ := ofPattern_afterSets hstart patterns
  refine ⟨hfind, hlast, fun pattern => ?_⟩
  rw [run_setPattern, withPattern, show f.flags = flags from flags_of_ofPattern hlast]
  cases h : ofPattern pattern flags with
  | ok f' => exact .inl ⟨f', rfl, rfl⟩
  | error fault => exact .inr ⟨fault, (foreseen_of_ofPattern h).1, (foreseen_of_ofPattern h).2, rfl⟩

/-- Of three patterns that are set one after another, the second is malformed and the third has a count past the
limit. -/
theorem refused_for_reason_count : ∃ (start f : Finder) (fault : PatternFault),
    ofPattern "a" [] = .ok start ∧ f = start.afterSets ["b", "("] ∧ f.pattern = "b" ∧
    (setPattern "a\x7b4294967295\x7d").run.run f = (.error fault, f) ∧ fault.fault = .countTooLarge := by
  have haccepts : accepts [] "a" = true ∧ accepts [] "(" = false ∧ accepts [] "b" = true := by decide +kernel
  have hfault : (match ofPattern "a\x7b4294967295\x7d" [] with
      | .ok _ => none
      | .error fault => some fault.fault) = some .countTooLarge := by decide +kernel
  cases hstart : ofPattern "a" [] with
  | error fault =>
    rw [accepts, hstart] at haccepts
    cases haccepts.1
  | ok start =>
  obtain ⟨hfind, hlast, hset⟩ := (refused_for_reason []).2 "a" start hstart ["b", "("]
  have hpattern : (start.afterSets ["b", "("]).pattern = "b" := by
    have hfirst : (["a", "b", "("].reverse).find? (accepts []) = some "b" := by
      rw [show ["a", "b", "("].reverse = ["(", "b", "a"] from rfl, List.find?_cons_of_neg (by rw [haccepts.2.1]; decide),
        List.find?_cons_of_pos haccepts.2.2]
    exact Option.some.inj (hfind.symm.trans hfirst)
  rcases hset "a\x7b4294967295\x7d" with ⟨f', hok, -⟩ | ⟨fault, -, -, hrun⟩
  · rw [hok] at hfault
    cases hfault
  · refine ⟨start, _, fault, rfl, rfl, hpattern, hrun, ?_⟩
    rw [run_setPattern, withPattern, flags_of_ofPattern hlast] at hrun
    split at hrun
    · cases hrun
    · next fault' herror =>
      rw [herror] at hfault
      obtain rfl := Except.error.inj (Prod.mk.inj hrun).1
      exact Option.some.inj hfault

end Finder

end SlotEdit.Regex
