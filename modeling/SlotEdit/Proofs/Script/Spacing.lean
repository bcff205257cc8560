import SlotEdit.Proofs.Script.StringLiterals

/-!
# Proofs/Script/Spacing — what stands between two string literals

In brackets, white space, line breaks, joined lines and comments are all alike to the grammar
(`gap_of_isGap`).  To the reader of values, only what stays on the line is (`piecesOnLine_inline`): behind anything
else the literals that follow are a fault (`piecesOnLine_of_not_inline`).
-/

namespace SlotEdit.Script

variable {p : Place} {e : Expected} {s t body : List Char} {c : Char} {o turns line : Nat}

/-- **White space, line breaks, joined lines and comments.** -/
inductive IsGap : List Char → Prop
  | nil : IsGap []
  | blank {c : Char} {s : List Char} (hc : isSpacing c = true) (h : IsGap s) : IsGap (c :: s)
  | joined {s : List Char} (h : IsGap s) : IsGap ('\\' :: '\n' :: s)
  | joinedReturn {s : List Char} (h : IsGap s) : IsGap ('\\' :: '\r' :: '\n' :: s)
  | comment {body s : List Char} (hbody : '\n' ∉ body) (h : IsGap s) : IsGap ('#' :: (body ++ '\n' :: s))

/-- Blanks, tabs and form feeds, and joined lines: what does not end a line. -/
def staysOnLine : List Char → Bool
  | '\\' :: '\n' :: s => staysOnLine s
  | '\\' :: '\r' :: '\n' :: s => staysOnLine s
  | c :: s => (c == ' ' || c == '\t' || c == '\x0c') && staysOnLine s
  | [] => true

/-! ## The grammar passes all of it -/

/-- In brackets, no line end or block is looked for. -/
structure Place.InBrackets (p : Place) : Prop where
  lineEnd : p.lineEnd = false
  close : p.close = true

/-- What may come next is the token of an expression. -/
structure Expected.InExpression (e : Expected) : Prop where
  blockStart : e.blockStart = false
  blockEnd : e.blockEnd = false

theorem layoutToken?_eq_none (hp : p.InBrackets) (he : e.InExpression) (m : Measure) (c : Cursor) :
    layoutToken? p e m c = none := by
  rw [layoutToken?]
  split
  · rfl
  · rw [he.blockStart, Bool.false_and, if_neg Bool.false_ne_true]
    dsimp only
    rw [he.blockEnd, hp.close, hp.lineEnd]
    simp

/-- No line end or block is found in brackets: the next token is looked for behind white space, comments and joined
lines. -/
theorem gapFrom_eq (hp : p.InBrackets) (he : e.InExpression) (c : Cursor) : gapFrom p e turns c =
    match turns with
    | 0 => .token (c.skipWhile isSpacing)
    | turns + 1 =>
      match (c.skipWhile isSpacing).rest with
      | '#' :: _ => gapFrom p e turns ((c.skipWhile isSpacing).skipWhile fun c => c != '\n')
      | '\\' :: '\n' :: _ => gapFrom p e turns ((c.skipWhile isSpacing).drop 2)
      | '\\' :: '\r' :: '\n' :: _ => gapFrom p e turns ((c.skipWhile isSpacing).drop 3)
      | _ => .token (c.skipWhile isSpacing) := by
  have hnone (found : Option Measure) : (found.bind fun m => layoutToken? p e m c) = none := by
    cases found with
    | none => rfl
    | some m => exact layoutToken?_eq_none hp he m c
  have hunfold := gapFrom.eq_def p e turns c
  dsimp only at hunfold
  rw [hnone] at hunfold
  exact hunfold

theorem skipWhile_of_head {q : Char → Bool} (h : ∀ c ∈ t.head?, q c = false) :
    Cursor.skipWhile q ⟨o, t⟩ = ⟨o, t⟩ := by
  have htake := takeWhile_run (s := []) nofun h
  have hdrop := dropWhile_run (s := []) nofun h
  rw [List.nil_append] at htake hdrop
  rw [Cursor.skipWhile, htake, hdrop]
  rfl

theorem skipWhile_cons {q : Char → Bool} (h : q c = true) :
    Cursor.skipWhile q ⟨o, c :: s⟩ = Cursor.skipWhile q ⟨o + 1, s⟩ := by
  rw [Cursor.skipWhile, Cursor.skipWhile, List.takeWhile_cons_of_pos h, List.dropWhile_cons_of_pos h, List.length_cons,
    Nat.add_assoc, Nat.add_comm 1]

/-- The text stands at a token, or is at its end. -/
def StartsToken (t : List Char) : Prop := ∀ c ∈ t.head?, isSpacing c = false ∧ c ≠ '#' ∧ c ≠ '\\'

theorem gapFrom_token (hp : p.InBrackets) (he : e.InExpression) (ht : StartsToken t) :
    gapFrom p e turns ⟨o, t⟩ = .token ⟨o, t⟩ := by
  rw [gapFrom_eq hp he, skipWhile_of_head fun c hc => (ht c hc).1]
  cases turns with
  | zero => rfl
  | succ turns =>
    dsimp only
    split
    · exact absurd rfl (ht '#' rfl).2.1
    · exact absurd rfl (ht '\\' rfl).2.2
    · exact absurd rfl (ht '\\' rfl).2.2
    · rfl

theorem gapFrom_blank (hp : p.InBrackets) (he : e.InExpression) (hc : isSpacing c = true) :
    gapFrom p e turns ⟨o, c :: s⟩ = gapFrom p e turns ⟨o + 1, s⟩ := by
  rw [gapFrom_eq hp he, gapFrom_eq hp he, skipWhile_cons hc]

/-- **The grammar passes all that stands between two tokens** in brackets. -/
theorem gapFrom_of_isGap (hp : p.InBrackets) (he : e.InExpression) (hs : IsGap s) (ht : StartsToken t)
    (hturns : s.length ≤ turns) : gapFrom p e turns ⟨o, s ++ t⟩ = .token ⟨o + s.length, t⟩ := by
  induction hs generalizing o turns with
  | nil => exact gapFrom_token hp he ht
  | blank hc h ih =>
    rw [List.cons_append, gapFrom_blank hp he hc, ih (Nat.le_of_succ_le hturns), Nat.add_assoc, Nat.add_comm 1, List.length_cons]
  | @joined s h ih =>
    obtain ⟨turns, rfl⟩ := Nat.exists_eq_succ_of_ne_zero (Nat.ne_of_gt (Nat.lt_of_lt_of_le (Nat.succ_pos _) hturns))
    rw [gapFrom_eq hp he, List.cons_append, skipWhile_of_head fun _ h => Option.some.inj h ▸ by decide]
    refine (congrArg _ (drop_cursor (s := '\\' :: '\n' :: s) (n := 2) (Nat.le_add_left _ _))).trans ?_
    refine (ih (Nat.le_of_succ_le (Nat.le_of_succ_le_succ hturns))).trans ?_
    rw [Nat.add_assoc, Nat.add_comm 2, List.length_cons, List.length_cons]
  | @joinedReturn s h ih =>
    obtain ⟨turns, rfl⟩ := Nat.exists_eq_succ_of_ne_zero (Nat.ne_of_gt (Nat.lt_of_lt_of_le (Nat.succ_pos _) hturns))
    rw [gapFrom_eq hp he, List.cons_append, skipWhile_of_head fun _ h => Option.some.inj h ▸ by decide]
    refine (congrArg _ (drop_cursor (s := '\\' :: '\r' :: '\n' :: s) (n := 3) (Nat.le_add_left _ _))).trans ?_
    refine (ih (Nat.le_of_succ_le (Nat.le_of_succ_le (Nat.le_of_succ_le_succ hturns)))).trans ?_
    rw [Nat.add_assoc, Nat.add_comm 3, List.length_cons, List.length_cons, List.length_cons]
  | @comment body s hbody h ih =>
    obtain ⟨turns, rfl⟩ := Nat.exists_eq_succ_of_ne_zero (Nat.ne_of_gt (Nat.lt_of_lt_of_le (Nat.succ_pos _) hturns))
    have hrun : ∀ c ∈ '#' :: body, (c != '\n') = true :=
      List.forall_mem_cons.mpr ⟨by decide, fun c hc => bne_iff_ne.mpr fun heq => hbody (heq ▸ hc)⟩
    have hskip : Cursor.skipWhile (fun c => c != '\n') ⟨o, '#' :: (body ++ '\n' :: (s ++ t))⟩ =
        ⟨o + (body.length + 1), '\n' :: (s ++ t)⟩ := by
      rw [Cursor.skipWhile, ← List.cons_append, takeWhile_run hrun (by simp), dropWhile_run hrun (by simp), List.length_cons]
    rw [gapFrom_eq hp he, List.cons_append, skipWhile_of_head fun _ h => Option.some.inj h ▸ by decide]
    dsimp only
    rw [List.append_assoc, List.cons_append, hskip, gapFrom_blank hp he (by decide), ih]
    · simp only [List.length_cons, List.length_append, Nat.add_comm, Nat.add_left_comm]
    · simp only [List.length_cons, List.length_append] at hturns
      omega

theorem gap_of_isGap (hp : p.InBrackets) (he : e.InExpression) (hs : IsGap s) (ht : StartsToken t) :
    gap p e ⟨o, s ++ t⟩ = .token ⟨o + s.length, t⟩ :=
  gapFrom_of_isGap hp he hs ht (by rw [List.length_append]; exact Nat.le_add_right _ _)

theorem operandAt?_of_isGap (hs : IsGap s) (ht : StartsToken t) :
    operandAt? p true ⟨o, s ++ t⟩ = some ⟨o + s.length, t⟩ := by
  rw [operandAt?, gap_of_isGap ⟨rfl, rfl⟩ ⟨rfl, rfl⟩ hs ht]

theorem onward?_of_isGap (hp : p.InBrackets) (hs : IsGap s) (ht : StartsToken t) :
    onward? p ⟨o, s ++ t⟩ = some ⟨o + s.length, t⟩ := by
  rw [onward?, gap_of_isGap hp ⟨rfl, rfl⟩ hs ht]

theorem onwardString?_of_isGap (hp : p.InBrackets) (hs : IsGap s) (ht : StartsToken t) :
    onwardString? p ⟨o, s ++ t⟩ = some ⟨o + s.length, t⟩ := by
  rw [onwardString?, gap_of_isGap hp ⟨rfl, rfl⟩ hs ht]

/-! ## The reader of values passes what stays on the line -/

theorem piecesOnLine_joined :
    piecesOnLine (turns + 1) line ('\\' :: '\n' :: s) = piecesOnLine turns (line + 1) s := by
  rw [piecesOnLine, if_neg (by decide), if_neg (by decide), if_neg (by decide), if_pos ⟨rfl, rfl⟩]
  rfl

theorem piecesOnLine_blank (hc : c = ' ' ∨ c = '\t' ∨ c = '\x0c') :
    piecesOnLine (turns + 1) line (c :: s) = piecesOnLine turns line s := by
  rw [piecesOnLine, if_neg, if_pos hc]
  rintro rfl
  exact absurd hc (by decide)

theorem unifyBreaks_joined (s : List Char) : unifyBreaks ('\\' :: '\n' :: s) = '\\' :: '\n' :: unifyBreaks s := by
  rw [unifyBreaks_cons (by decide), unifyBreaks_cons (by decide)]

theorem unifyBreaks_joinedReturn (s : List Char) :
    unifyBreaks ('\\' :: '\r' :: '\n' :: s) = '\\' :: '\n' :: unifyBreaks s := by
  rw [unifyBreaks_cons (by decide), unifyBreaks_returned]

/-- **What stays on the line is passed.** -/
theorem piecesOnLine_of_staysOnLine (line : Nat) (hs : staysOnLine s = true) (hturns : (unifyBreaks s ++ t).length < turns) :
    ∃ turns' line', t.length < turns' ∧ piecesOnLine turns line (unifyBreaks s ++ t) = piecesOnLine turns' line' t := by
  fun_induction staysOnLine s generalizing turns line with
  | case1 s ih =>
    rw [unifyBreaks_joined, List.cons_append, List.cons_append] at hturns ⊢
    cases turns with
    | zero => exact absurd hturns (Nat.not_lt_zero _)
    | succ turns =>
      rw [piecesOnLine_joined]
      exact ih _ hs (Nat.lt_of_succ_lt (Nat.lt_of_succ_lt_succ hturns))
  | case2 s ih =>
    rw [unifyBreaks_joinedReturn, List.cons_append, List.cons_append] at hturns ⊢
    cases turns with
    | zero => exact absurd hturns (Nat.not_lt_zero _)
    | succ turns =>
      rw [piecesOnLine_joined]
      exact ih _ hs (Nat.lt_of_succ_lt (Nat.lt_of_succ_lt_succ hturns))
  | case3 c s hne hne' ih =>
    rw [Bool.and_eq_true] at hs
    have hc : c = ' ' ∨ c = '\t' ∨ c = '\x0c' := by simpa [or_assoc] using hs.1
    have hreturn : c ≠ '\r' := by
      rintro rfl
      exact absurd hc (by decide)
    rw [unifyBreaks_cons hreturn, List.cons_append] at hturns ⊢
    cases turns with
    | zero => exact absurd hturns (Nat.not_lt_zero _)
    | succ turns =>
      rw [piecesOnLine_blank hc]
      exact ih _ hs.2 (Nat.lt_of_succ_lt_succ hturns)
  | case4 => exact ⟨turns, line, hturns, rfl⟩

/-! ## Behind anything else there is a fault -/

/-- Every comment mark has a line break behind it. -/
def CommentsEnd (s : List Char) : Prop := ∀ front back, s = front ++ '#' :: back → '\n' ∈ back

theorem CommentsEnd.suffix (h : CommentsEnd s) (ht : t <:+ s) : CommentsEnd t := by
  obtain ⟨front, rfl⟩ := ht
  intro front' back heq
  exact h (front ++ front') back (by rw [heq, List.append_assoc])

theorem CommentsEnd.cons (h : CommentsEnd s) (hc : c ≠ '#') : CommentsEnd (c :: s) := by
  intro front back heq
  cases front with
  | nil => exact absurd (List.cons.inj heq).1 hc
  | cons d front => exact h front back (List.cons.inj heq).2

theorem CommentsEnd.append_newline (front : List Char) (h : CommentsEnd s) : CommentsEnd (front ++ '\n' :: s) := by
  induction front with
  | nil => exact h.cons (by decide)
  | cons d front ih =>
    intro front' back heq
    cases front' with
    | nil =>
      rw [← (List.cons.inj heq).2]
      exact List.mem_append_right _ List.mem_cons_self
    | cons d' front' => exact ih front' back (List.cons.inj heq).2

theorem exists_unifyBreaks_append_newline (s t : List Char) :
    ∃ front, unifyBreaks (s ++ '\n' :: t) = front ++ '\n' :: unifyBreaks t := by
  by_cases hlast : s.getLast? = some '\r'
  · obtain ⟨s, rfl⟩ := List.getLast?_eq_some_iff.mp hlast
    refine ⟨unifyBreaks s, ?_⟩
    rw [List.append_assoc, unifyBreaks_append fun _ => by simp]
    exact congrArg _ (unifyBreaks_returned t)
  · refine ⟨unifyBreaks s, ?_⟩
    rw [unifyBreaks_append fun heq => absurd heq hlast, unifyBreaks_cons (by decide)]

/-- A carriage return is a line break or part of one. -/
theorem unifyBreaks_return_or (s : List Char) :
    unifyBreaks ('\r' :: s) = unifyBreaks s ∧ s.head? = some '\n' ∨ unifyBreaks ('\r' :: s) = '\n' :: unifyBreaks s := by
  by_cases hhead : s.head? = some '\n'
  · obtain ⟨s, rfl⟩ := List.head?_eq_some_iff.mp hhead
    exact .inl ⟨by rw [unifyBreaks_returned, unifyBreaks_cons (by decide)], hhead⟩
  · exact .inr (unifyBreaks_return hhead)

theorem IsGap.commentsEnd (h : IsGap s) : CommentsEnd (unifyBreaks s) := by
  induction h with
  | nil => exact fun front back heq => absurd heq.symm (List.append_ne_nil_of_right_ne_nil _ (List.cons_ne_nil _ _))
  | @blank c s hc h ih =>
    by_cases hreturn : c = '\r'
    · rw [hreturn]
      rcases unifyBreaks_return_or s with ⟨heq, -⟩ | heq
      · exact heq ▸ ih
      · exact heq ▸ ih.cons (by decide)
    · rw [unifyBreaks_cons hreturn]
      refine ih.cons ?_
      rintro rfl
      exact absurd hc (by decide)
  | joined h ih => exact unifyBreaks_joined _ ▸ ih.append_newline ['\\']
  | joinedReturn h ih => exact unifyBreaks_joinedReturn _ ▸ ih.append_newline ['\\']
  | @comment body s hbody h ih =>
    obtain ⟨front, hfront⟩ := exists_unifyBreaks_append_newline body s
    rw [unifyBreaks_cons (by decide), hfront]
    exact ih.append_newline ('#' :: front)

/-- A comment goes up to the line break behind it. -/
theorem exists_dropWhile_comment (h : CommentsEnd ('#' :: s)) : ∃ front back, s = front ++ '\n' :: back ∧
    ∀ t, (s ++ t).dropWhile (fun c => c != '\n') = '\n' :: (back ++ t) := by
  obtain ⟨front, back, rfl, hfront⟩ := List.eq_append_cons_of_mem (h [] s rfl)
  have hrun : ∀ c ∈ front, (c != '\n') = true := fun c hc => bne_iff_ne.mpr fun heq => hfront (heq ▸ hc)
  refine ⟨front, back, rfl, fun t => ?_⟩
  rw [List.append_assoc, List.cons_append, dropWhile_run hrun (by simp)]

/-- **A literal behind a line break is a fault.** -/
theorem isSome_behindFault? {column : Bool} (hs : CommentsEnd s) (hc : startsLiteral c = true) (hturns : s.length < turns) :
    (behindFault? turns line column (s ++ c :: t)).isSome = true := by
  induction turns generalizing line column s with
  | zero => exact absurd hturns (Nat.not_lt_zero _)
  | succ turns ih =>
    cases s with
    | nil =>
      obtain ⟨hline, hspace, htab, hfeed, hhash, -⟩ := ne_of_startsLiteral hc
      rw [List.nil_append, behindFault?, if_neg hline, if_neg (by simp [hspace, htab]), if_neg hfeed, if_neg hhash]
      rfl
    | cons d s =>
      have hrest := Nat.lt_of_succ_lt_succ hturns
      have htail := hs.suffix (List.suffix_cons d s)
      rw [List.cons_append, behindFault?]
      split
      · exact ih htail hrest
      · split
        · exact ih htail hrest
        · split
          · exact ih htail hrest
          · split
            · next hhash =>
              obtain ⟨front, back, rfl, hdrop⟩ := exists_dropWhile_comment (hhash ▸ hs)
              rw [hdrop]
              refine ih (s := '\n' :: back) (htail.suffix (List.suffix_append _ _)) ?_
              rw [List.length_append] at hrest
              omega
            · rfl

/-- What is behind the literals of a line cannot stand there. -/
def LineRest.Breaks : LineRest → Prop
  | .textEnd => False
  | .lineBreak behind => ∀ line, (behindFault? behind.length line false behind).isSome = true
  | .other => True

theorem breaks_lineBreak (hs : CommentsEnd s) (hc : startsLiteral c = true) : (LineRest.lineBreak (s ++ c :: t)).Breaks :=
  fun _ => isSome_behindFault? hs hc (by rw [List.length_append, List.length_cons]; omega)

theorem piecesOnLine_newline : piecesOnLine (turns + 1) line ('\n' :: s) = .ok ([], .lineBreak s, line) := by
  rw [piecesOnLine, if_pos rfl]

theorem staysOnLine_cons (hc : c ≠ '\\') :
    staysOnLine (c :: s) = ((c == ' ' || c == '\t' || c == '\x0c') && staysOnLine s) := by
  rw [staysOnLine]
  · exact fun _ heq => absurd heq hc
  · exact fun _ heq => absurd heq hc

theorem isSpacing_eq_false_of_startsLiteral (h : startsLiteral c = true) : isSpacing c = false := by
  rw [startsLiteral_iff] at h
  fin_cases h <;> decide

theorem startsLiteral_eq_false_of_isSpacing (h : isSpacing c = true) : startsLiteral c = false :=
  Bool.eq_false_iff.mpr fun hc => Bool.false_ne_true ((isSpacing_eq_false_of_startsLiteral hc).symm.trans h)

theorem quoting?_eq_none (h : startsLiteral c = false) : quoting? ⟨o, c :: s⟩ = none := by
  rw [startsLiteral, Bool.or_eq_false_iff] at h
  rw [quoting?]
  dsimp only
  rw [List.takeWhile_cons_of_neg (by rw [h.1]; exact Bool.false_ne_true), List.length_nil, List.drop_zero]
  dsimp only
  rw [h.2, if_neg Bool.false_ne_true]

/-- **Behind what ends a line, a literal is a fault.** -/
theorem exists_piecesOnLine_of_not_staysOnLine (hs : IsGap s) (hline : staysOnLine s = false) (hc : startsLiteral c = true)
    (hturns : (unifyBreaks s ++ c :: t).length < turns) :
    ∃ rest last, piecesOnLine turns line (unifyBreaks s ++ c :: t) = .ok ([], rest, last) ∧ rest.Breaks := by
  induction hs generalizing turns line with
  | nil => cases hline
  | @blank d s hd h ih =>
    cases turns with
    | zero => exact absurd hturns (Nat.not_lt_zero _)
    | succ turns =>
      by_cases hreturn : d = '\r'
      · rw [hreturn] at hturns ⊢
        rcases unifyBreaks_return_or s with ⟨heq, hhead⟩ | heq
        · rw [heq] at hturns ⊢
          obtain ⟨s, rfl⟩ := List.head?_eq_some_iff.mp hhead
          exact ih (staysOnLine_cons (by decide)) hturns
        · rw [heq]
          exact ⟨_, _, piecesOnLine_newline, breaks_lineBreak h.commentsEnd hc⟩
      · rw [unifyBreaks_cons hreturn, List.cons_append] at hturns ⊢
        by_cases hbreak : d = '\n'
        · rw [hbreak]
          exact ⟨_, _, piecesOnLine_newline, breaks_lineBreak h.commentsEnd hc⟩
        · by_cases hblank : d = ' ' ∨ d = '\t' ∨ d = '\x0c'
          · rw [piecesOnLine_blank hblank]
            refine ih ?_ (Nat.lt_of_succ_lt_succ hturns)
            rcases hblank with rfl | rfl | rfl
            all_goals exact (staysOnLine_cons (by decide)).symm.trans hline
          · refine ⟨.other, line, ?_, trivial⟩
            have hmark : d ≠ '#' ∧ d ≠ '\\' := ⟨fun heq => absurd (heq ▸ hd) (by decide), fun heq => absurd (heq ▸ hd) (by decide)⟩
            rw [piecesOnLine, if_neg hbreak, if_neg hblank, if_neg hmark.1, if_neg fun h => hmark.2 h.1,
              quoting?_eq_none (startsLiteral_eq_false_of_isSpacing hd)]
  | @joined s h ih =>
    cases turns with
    | zero => exact absurd hturns (Nat.not_lt_zero _)
    | succ turns =>
      rw [unifyBreaks_joined, List.cons_append, List.cons_append] at hturns ⊢
      rw [piecesOnLine_joined]
      exact ih hline (Nat.lt_of_succ_lt (Nat.lt_of_succ_lt_succ hturns))
  | @joinedReturn s h ih =>
    cases turns with
    | zero => exact absurd hturns (Nat.not_lt_zero _)
    | succ turns =>
      rw [unifyBreaks_joinedReturn, List.cons_append, List.cons_append] at hturns ⊢
      rw [piecesOnLine_joined]
      exact ih hline (Nat.lt_of_succ_lt (Nat.lt_of_succ_lt_succ hturns))
  | @comment body s hbody h ih =>
    have hend := (IsGap.comment hbody h).commentsEnd
    rw [unifyBreaks_cons (by decide), List.cons_append] at hturns ⊢
    rw [unifyBreaks_cons (by decide)] at hend
    obtain ⟨front, back, heq, hdrop⟩ := exists_dropWhile_comment hend
    rw [List.length_cons] at hturns
    obtain ⟨turns, rfl⟩ := Nat.exists_eq_add_of_le' (Nat.le_trans (Nat.le_add_left 2 _) hturns)
    rw [piecesOnLine, if_neg (by decide), if_neg (by decide), if_pos rfl, hdrop, piecesOnLine_newline]
    exact ⟨_, _, rfl, breaks_lineBreak (hend.suffix ⟨'#' :: (front ++ ['\n']), by rw [heq]; simp⟩) hc⟩

/-! ## Between two literals -/

theorem startsToken_of_startsLiteral (h : startsLiteral c = true) : StartsToken (c :: s) := by
  intro d hd
  obtain rfl := Option.some.inj hd
  obtain ⟨-, -, -, -, hhash, hslash⟩ := ne_of_startsLiteral h
  exact ⟨isSpacing_eq_false_of_startsLiteral h, hhash, hslash⟩

/-- What stands between two tokens starts no literal. -/
theorem IsGap.startsLiteral_eq_false (h : IsGap s) : ∀ c ∈ s.head?, startsLiteral c = false := by
  intro c hc
  cases h with
  | nil => cases hc
  | blank hd => exact Option.some.inj hc ▸ startsLiteral_eq_false_of_isSpacing hd
  | joined => exact Option.some.inj hc ▸ by decide
  | joinedReturn => exact Option.some.inj hc ▸ by decide
  | comment => exact Option.some.inj hc ▸ by decide

theorem isQuote_eq_false_of_startsLiteral (h : startsLiteral c = false) : isQuote c = false :=
  (Bool.or_eq_false_iff.mp h).2

theorem IsGap.isQuote_eq_false (h : IsGap s) (hs : s ≠ []) : ∀ c ∈ (s ++ t).head?, isQuote c = false := by
  obtain ⟨d, s, rfl⟩ := List.exists_cons_of_ne_nil hs
  exact fun c hc => isQuote_eq_false_of_startsLiteral (h.startsLiteral_eq_false c hc)

theorem head?_unifyBreaks (s : List Char) : (unifyBreaks s).head? = s.head?.map fun c => if c = '\r' then '\n' else c := by
  cases s with
  | nil => rfl
  | cons c s =>
    by_cases hc : c = '\r'
    · rw [hc]
      rcases unifyBreaks_return_or s with ⟨heq, hhead⟩ | heq
      · obtain ⟨s, rfl⟩ := List.head?_eq_some_iff.mp hhead
        rw [heq, unifyBreaks_cons (by decide)]
        rfl
      · rw [heq]
        rfl
    · rw [unifyBreaks_cons hc, List.head?_cons, List.head?_cons, Option.map_some, if_neg hc]

theorem IsGap.isQuote_unifyBreaks_eq_false (h : IsGap s) (hs : s ≠ []) :
    ∀ c ∈ (unifyBreaks s ++ t).head?, isQuote c = false := by
  intro c hc
  obtain ⟨d, s, rfl⟩ := List.exists_cons_of_ne_nil hs
  rw [List.head?_append, head?_unifyBreaks, List.head?_cons, Option.map_some, Option.some_or] at hc
  obtain rfl := Option.some.inj hc
  split
  · decide
  · exact isQuote_eq_false_of_startsLiteral (h.startsLiteral_eq_false d rfl)

end SlotEdit.Script
