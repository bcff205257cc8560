import Mathlib.Data.List.Chain
import SlotEdit.Proofs.Math.Spelling
import SlotEdit.Proofs.Math.Lexemes

/-!
# Proofs/Math/Writing — tokens written out and read back

A text read as tokens is their texts with blanks between them and an end token behind
(`exists_body`).  The other way round, tokens written out with any blanks between them, or none where
no two words meet, are read back (`tokenize_written`).
-/

namespace SlotEdit

/-- **A token that some rule gives**, and of a kind that is kept. -/
def Token.IsGiven (rules : List TokenRule) (skip : List String) (t : Token) : Prop :=
  t.kind ∉ skip ∧ ∃ before s n, firstMatch rules before s = some (t.kind, n) ∧ t.value = String.ofList (s.take n)

/-- **What a text is cut into**: tokens that the rules give, and the end token behind them. -/
theorem exists_body {rules : List TokenRule} (hrules : ∀ rule ∈ rules, rule.Fits) {skip : List String} {offset : Nat}
    {before rest : List Char} {tokens : List Token} (h : tokenizeFrom rules skip offset before rest = .ok tokens) :
    ∃ body, tokens = body ++ [Token.atEnd (offset + rest.length)] ∧ ∀ t ∈ body, t.IsGiven rules skip := by
  induction offset, before, rest using tokenizeFrom.induct rules generalizing tokens with
  | case1 offset before =>
    rw [tokenizeFrom] at h
    obtain rfl := Except.ok.inj h
    exact ⟨[], rfl, by simp⟩
  | case2 offset before c tail hnone =>
    rw [tokenizeFrom, hnone] at h
    cases h
  | case3 offset before c tail kind n hsome lexeme =>
    rename_i ih
    obtain ⟨hpos, hle⟩ := firstMatch_le hrules hsome
    rw [tokenizeFrom, hsome] at h
    obtain ⟨more, hmore, h⟩ := bind_eq_ok.mp h
    obtain ⟨body, rfl, hbody⟩ := ih hmore
    have hlength : offset + n + (tail.drop (n - 1)).length = offset + (c :: tail).length := by
      rw [List.length_drop, List.length_cons]
      rw [List.length_cons] at hle
      omega
    obtain rfl := pure_eq_ok.mp h
    rw [hlength]
    split
    · exact ⟨body, rfl, hbody⟩
    · next hkept =>
      refine ⟨_ :: body, rfl, List.forall_mem_cons.mpr ⟨⟨hkept, before, c :: tail, n, hsome, ?_⟩, hbody⟩⟩
      obtain ⟨m, rfl⟩ : ∃ m, n = m + 1 := Nat.exists_eq_add_one.mpr hpos
      rfl

/-- A text whose front a rule takes is cut off there. -/
theorem tokenizeFrom_append {rules : List TokenRule} {skip : List String} {offset : Nat} {before v r : List Char}
    {kind : String} (h : firstMatch rules before (v ++ r) = some (kind, v.length)) (hv : v ≠ []) :
    tokenizeFrom rules skip offset before (v ++ r) =
      (tokenizeFrom rules skip (offset + v.length) (v.reverse ++ before) r).map fun more =>
        if kind ∈ skip then more else ⟨kind, String.ofList v, offset, offset + v.length⟩ :: more := by
  obtain ⟨c, v, rfl⟩ := List.exists_cons_of_ne_nil hv
  rw [List.cons_append] at h ⊢
  rw [tokenizeFrom, h]
  dsimp only
  rw [List.length_cons, Nat.add_sub_cancel, List.take_left, List.drop_left]
  rfl

theorem firstMatch_cons (rule : TokenRule) (rules : List TokenRule) (before s : List Char) :
    firstMatch (rule :: rules) before s =
      if 0 < rule.length before s then some (rule.kind, rule.length before s) else firstMatch rules before s := by
  rw [firstMatch, List.findSome?_cons]
  split_ifs with hpos
  · rw [if_pos hpos]
  · rw [if_neg hpos]
    rfl

theorem firstMatch_cons_of_pos {rule : TokenRule} {before s : List Char} {n : Nat} (h : rule.length before s = n)
    (hn : 0 < n) (rules : List TokenRule) : firstMatch (rule :: rules) before s = some (rule.kind, n) := by
  rw [firstMatch_cons, if_pos (h.symm ▸ hn), h]

theorem firstMatch_cons_of_zero {rule : TokenRule} {before s : List Char} (h : rule.length before s = 0)
    (rules : List TokenRule) : firstMatch (rule :: rules) before s = firstMatch rules before s := by
  rw [firstMatch_cons, if_neg (h.symm ▸ Nat.lt_irrefl 0)]

namespace Math

/-! ## Lexemes -/

/-- The marks of operators. -/
def operatorMarks : List Char := ['-', '+', '*', '/', '^']

/-- The marks of calls and groups. -/
def punctuationMarks : List Char := ['(', ')', ',']

/-- **The texts of tokens**, by their kinds. -/
inductive Lexeme : String → List Char → Prop
  | number {v : List Char} : Number v → Lexeme "NUMBER" v
  | identifier {c : Char} {v : List Char} : (isAsciiLetter c || c == '_') = true → (∀ c ∈ v, isAsciiWord c = true) →
      Lexeme "IDENTIFIER" (c :: v)
  | operator {c : Char} : c ∈ operatorMarks → Lexeme "OPERATOR" [c]
  | punctuation {c : Char} : c ∈ punctuationMarks → Lexeme "PUNCTUATION" [c]

theorem oneOf_pos {chars s : List Char} (h : 0 < oneOf chars s) :
    ∃ c r, s = c :: r ∧ c ∈ chars ∧ oneOf chars s = 1 := by
  cases s with
  | nil => cases h
  | cons c r =>
    rw [oneOf] at h ⊢
    split at h
    · next hmem => exact ⟨c, r, rfl, hmem, if_pos hmem⟩
    · cases h

/-- **What a rule takes is a lexeme of its kind**, or blank. -/
theorem lexeme_of_firstMatch {before s : List Char} {kind : String} {n : Nat}
    (h : firstMatch tokenRules before s = some (kind, n)) (hkind : kind ∉ skippedKinds) : Lexeme kind (s.take n) := by
  rw [tokenRules, firstMatch_cons, firstMatch_cons, firstMatch_cons, firstMatch_cons, firstMatch_cons] at h
  split_ifs at h with hblank hnumber hidentifier hoperator hpunctuation
  · obtain ⟨rfl, -⟩ := Prod.mk.inj (Option.some.inj h)
    exact absurd List.mem_cons_self hkind
  · obtain ⟨rfl, rfl⟩ := Prod.mk.inj (Option.some.inj h)
    exact .number (number_take (Nat.pos_iff_ne_zero.mp hnumber))
  · obtain ⟨rfl, rfl⟩ := Prod.mk.inj (Option.some.inj h)
    cases s with
    | nil => cases hidentifier
    | cons c rest =>
      dsimp only at hidentifier ⊢
      rw [identifierLength] at hidentifier ⊢
      split at hidentifier
      · next hstart =>
        rw [if_pos hstart, Nat.add_comm, List.take_succ_cons, take_length_takeWhile]
        exact .identifier hstart (List.all_eq_true.mp List.all_takeWhile)
      · cases hidentifier
  · obtain ⟨rfl, rfl⟩ := Prod.mk.inj (Option.some.inj h)
    obtain ⟨c, r, rfl, hmem, hone⟩ := oneOf_pos hoperator
    dsimp only
    rw [hone]
    exact .operator hmem
  · obtain ⟨rfl, rfl⟩ := Prod.mk.inj (Option.some.inj h)
    obtain ⟨c, r, rfl, hmem, hone⟩ := oneOf_pos hpunctuation
    dsimp only
    rw [hone]
    exact .punctuation hmem
  · cases h

theorem lexeme_of_isGiven {t : Token} (h : t.IsGiven tokenRules skippedKinds) :
    Lexeme t.kind t.value.toList := by
  obtain ⟨hkept, before, s, n, hmatch, hvalue⟩ := h
  rw [hvalue, String.toList_ofList]
  exact lexeme_of_firstMatch hmatch hkept

/-! ## Reading a lexeme back -/

/-- The token is a number or an identifier: two of these may not touch. -/
def IsWord (t : Token) : Prop := t.kind = "NUMBER" ∨ t.kind = "IDENTIFIER"

/-- What follows starts with a blank or a mark. -/
def Parts (r : List Char) : Prop := ∀ c ∈ r.head?, isBlank c = true ∨ c ∈ operatorMarks ∨ c ∈ punctuationMarks

theorem toNat_of_isAsciiWord {c : Char} (h : isAsciiWord c = true) : 48 ≤ c.toNat ∧ c.toNat ≤ 122 := by
  have hle {a b : Char} (hab : a ≤ b) : a.toNat ≤ b.toNat := hab
  simp only [isAsciiWord, isAsciiLetter, isAsciiDigit, Bool.or_eq_true, decide_eq_true_eq, beq_iff_eq] at h
  rcases h with ((⟨hlow, hhigh⟩ | ⟨hlow, hhigh⟩) | ⟨hlow, hhigh⟩) | rfl
  · exact ⟨le_trans (by decide) (hle hlow), hle hhigh⟩
  · exact ⟨le_trans (by decide) (hle hlow), (hle hhigh).trans (by decide)⟩
  · exact ⟨hle hlow, (hle hhigh).trans (by decide)⟩
  · decide

/-- What starts an identifier goes on with one as well. -/
theorem isAsciiWord_of_start {c : Char} (h : (isAsciiLetter c || c == '_') = true) : isAsciiWord c = true := by
  rw [Bool.or_eq_true] at h
  rw [isAsciiWord, Bool.or_eq_true, Bool.or_eq_true]
  exact h.imp_left .inl

theorem isBlank_eq_false_of_isAsciiWord {c : Char} (h : isAsciiWord c = true) : isBlank c = false := by
  obtain ⟨hlow, hhigh⟩ := toNat_of_isAsciiWord h
  refine decide_eq_false ?_
  omega

/-- A mark is no blank, no word and no point. -/
theorem apart_of_mark {c : Char} (h : c ∈ operatorMarks ∨ c ∈ punctuationMarks) :
    isBlank c = false ∧ isDecimalDigit c = false ∧ c ≠ '.' ∧ isAsciiWord c = false := by
  have hall : ((operatorMarks ++ punctuationMarks).all fun c =>
      decide (isBlank c = false ∧ isDecimalDigit c = false ∧ c ≠ '.' ∧ isAsciiWord c = false)) = true := by decide
  exact of_decide_eq_true (List.all_eq_true.mp hall c (List.mem_append.mpr h))

/-- No blank and no mark goes on with a number or an identifier. -/
theorem not_word_of_parts {c : Char} (h : isBlank c = true ∨ c ∈ operatorMarks ∨ c ∈ punctuationMarks) :
    isDecimalDigit c = false ∧ c ≠ '.' ∧ isAsciiWord c = false := by
  rcases h with hblank | hmark
  · have hfalse : isBlank c ≠ false := Bool.eq_false_iff.not_left.mpr hblank
    refine ⟨Bool.eq_false_iff.mpr (mt isBlank_eq_false_of_isDecimalDigit hfalse), ?_,
      Bool.eq_false_iff.mpr (mt isBlank_eq_false_of_isAsciiWord hfalse)⟩
    rintro rfl
    exact absurd hblank (by decide)
  · exact (apart_of_mark hmark).2

theorem Parts.stopsNumber {r : List Char} (h : Parts r) : StopsNumber r := by
  intro c hc
  obtain ⟨hdigit, hpoint, hword⟩ := not_word_of_parts (h c hc)
  exact ⟨hdigit, hpoint, fun he => absurd hword (he ▸ by decide), fun he => absurd hword (he ▸ by decide)⟩

theorem Parts.stopsWord {r : List Char} (h : Parts r) : ∀ c ∈ r.head?, isAsciiWord c = false :=
  fun c hc => (not_word_of_parts (h c hc)).2.2

theorem numberLength_eq_zero {c : Char} (hdigit : isDecimalDigit c = false) (hpoint : c ≠ '.') (s : List Char) :
    numberLength (c :: s) = 0 := by
  have hsignificand : significandLength (c :: s) = 0 := by
    rw [significandLength, List.takeWhile_cons_of_neg (Bool.eq_false_iff.mp hdigit), List.length_nil, List.drop_zero]
    split
    · next heq => exact absurd (List.cons.inj heq).1 hpoint
    · rfl
  rw [numberLength, hsignificand]
  rfl

theorem identifierLength_eq_zero {c : Char} (h : isAsciiWord c = false) (s : List Char) :
    identifierLength (c :: s) = 0 := by
  rw [identifierLength, if_neg (mt isAsciiWord_of_start (Bool.eq_false_iff.mp h))]

theorem oneOf_cons {chars : List Char} {c : Char} (h : c ∈ chars) (s : List Char) : oneOf chars (c :: s) = 1 :=
  if_pos h

theorem oneOf_eq_zero {chars : List Char} {c : Char} (h : c ∉ chars) (s : List Char) : oneOf chars (c :: s) = 0 :=
  if_neg h

theorem length_blank_eq_zero {c : Char} (hc : isBlank c = false) (s : List Char) :
    ((c :: s).takeWhile isBlank).length = 0 := by
  rw [List.takeWhile_cons_of_neg (Bool.eq_false_iff.mp hc), List.length_nil]

/-- **A lexeme is read back** when it is a mark, or a word that none follows. -/
theorem firstMatch_append {kind : String} {v r : List Char} (hv : Lexeme kind v)
    (hr : kind = "NUMBER" ∨ kind = "IDENTIFIER" → Parts r) (before : List Char) :
    firstMatch tokenRules before (v ++ r) = some (kind, v.length) := by
  cases hv with
  | number hv =>
    have hlength := numberLength_append hv (hr (.inl rfl)).stopsNumber
    obtain ⟨c, t, rfl, hc⟩ := hv.exists_cons
    have hblank : isBlank c = false := hc.elim isBlank_eq_false_of_isDecimalDigit fun h => h ▸ by decide
    exact (firstMatch_cons_of_zero (length_blank_eq_zero hblank _) _).trans
      (firstMatch_cons_of_pos hlength (Nat.zero_lt_succ _) _)
  | @identifier c v hstart hword =>
    have hc := isAsciiWord_of_start hstart
    have hdigit : isDecimalDigit c = false := Bool.eq_false_iff.mpr fun h => absurd hstart
      (Bool.eq_false_iff.mp (not_of_isDecimalDigit (p := fun c => isAsciiLetter c || c == '_') (by decide +kernel) h))
    have hpoint : c ≠ '.' := fun h => absurd hc (h ▸ by decide)
    have hlength : identifierLength (c :: v ++ r) = (c :: v).length := by
      rw [List.cons_append, identifierLength, if_pos hstart, takeWhile_run hword (hr (.inr rfl)).stopsWord, Nat.add_comm]
      rfl
    exact (firstMatch_cons_of_zero (length_blank_eq_zero (isBlank_eq_false_of_isAsciiWord hc) _) _).trans
      ((firstMatch_cons_of_zero (numberLength_eq_zero hdigit hpoint _) _).trans
        (firstMatch_cons_of_pos hlength (Nat.zero_lt_succ _) _))
  | @operator c hmark =>
    obtain ⟨hblank, hdigit, hpoint, hword⟩ := apart_of_mark (.inl hmark)
    rw [List.singleton_append]
    exact (firstMatch_cons_of_zero (length_blank_eq_zero hblank r) _).trans
      ((firstMatch_cons_of_zero (numberLength_eq_zero hdigit hpoint r) _).trans
        ((firstMatch_cons_of_zero (identifierLength_eq_zero hword r) _).trans
          (firstMatch_cons_of_pos (oneOf_cons hmark r) Nat.zero_lt_one _)))
  | @punctuation c hmark =>
    obtain ⟨hblank, hdigit, hpoint, hword⟩ := apart_of_mark (.inr hmark)
    have hall : (punctuationMarks.all fun c => decide (c ∉ operatorMarks)) = true := by decide
    have hoperator : c ∉ operatorMarks := of_decide_eq_true (List.all_eq_true.mp hall c hmark)
    rw [List.singleton_append]
    exact (firstMatch_cons_of_zero (length_blank_eq_zero hblank r) _).trans
      ((firstMatch_cons_of_zero (numberLength_eq_zero hdigit hpoint r) _).trans
        ((firstMatch_cons_of_zero (identifierLength_eq_zero hword r) _).trans
          ((firstMatch_cons_of_zero (oneOf_eq_zero hoperator r) _).trans
            (firstMatch_cons_of_pos (oneOf_cons hmark r) Nat.zero_lt_one _))))

/-! ## Texts of tokens -/

/-- **Tokens written out**, with a text before each and one behind all. -/
def written (gap : Nat → List Char) (i : Nat) : List Token → List Char
  | [] => gap i
  | t :: ts => gap i ++ (t.value.toList ++ written gap (i + 1) ts)

/-- No two words are neighbours. -/
def Separated (ts : List Token) : Prop := ts.IsChain fun t u => ¬(IsWord t ∧ IsWord u)

theorem map_id_eq {ε α : Type} (x : Except ε α) : (x.map fun a => a) = x := by
  cases x with
  | error e => rfl
  | ok a => rfl

/-- Blanks in front are passed over. -/
theorem tokenizeFrom_blanks {ws r : List Char} (hws : ∀ c ∈ ws, isBlank c = true)
    (hr : ∀ c ∈ r.head?, isBlank c = false) (offset : Nat) (before : List Char) : ∃ before', tokenizeFrom tokenRules skippedKinds offset before (ws ++ r) =
      tokenizeFrom tokenRules skippedKinds (offset + ws.length) before' r := by
  cases ws with
  | nil => exact ⟨before, rfl⟩
  | cons c ws =>
    have hlength : ((c :: ws ++ r).takeWhile isBlank).length = (c :: ws).length := by rw [takeWhile_run hws hr]
    have hmatch : firstMatch tokenRules before (c :: ws ++ r) = some ("WHITESPACE", (c :: ws).length) :=
      firstMatch_cons_of_pos hlength (Nat.zero_lt_succ _) _
    refine ⟨(c :: ws).reverse ++ before, ?_⟩
    rw [tokenizeFrom_append hmatch (List.cons_ne_nil c ws)]
    simp only [if_pos (show "WHITESPACE" ∈ skippedKinds from List.mem_cons_self)]
    exact map_id_eq _

theorem Lexeme.exists_cons {kind : String} {v : List Char} (hv : Lexeme kind v) :
    ∃ c s, v = c :: s ∧ isBlank c = false := by
  cases hv with
  | number hv =>
    obtain ⟨c, s, rfl, hc⟩ := hv.exists_cons
    exact ⟨c, s, rfl, hc.elim isBlank_eq_false_of_isDecimalDigit fun h => h ▸ by decide⟩
  | @identifier c v hstart _ =>
    exact ⟨c, v, rfl, isBlank_eq_false_of_isAsciiWord (isAsciiWord_of_start hstart)⟩
  | operator hmark => exact ⟨_, [], rfl, (apart_of_mark (.inl hmark)).1⟩
  | punctuation hmark => exact ⟨_, [], rfl, (apart_of_mark (.inr hmark)).1⟩

theorem Lexeme.kind_kept {kind : String} {v : List Char} (hv : Lexeme kind v) : kind ∉ skippedKinds := by
  cases hv with
  | _ => decide

/-- Behind a word stands a blank, a mark or nothing. -/
theorem parts_written {gap : Nat → List Char} (hgap : ∀ i, ∀ c ∈ gap i, isBlank c = true) {ts : List Token}
    (hts : ∀ u ∈ ts.head?, Lexeme u.kind u.value.toList ∧ ¬IsWord u) (i : Nat) : Parts (written gap i ts) := by
  have hblank {r : List Char} (hne : gap i ≠ []) : Parts (gap i ++ r) := by
    obtain ⟨c, s, hcons⟩ := List.exists_cons_of_ne_nil hne
    rw [hcons]
    rintro _ ⟨⟩
    exact .inl (hgap i c (hcons ▸ List.mem_cons_self))
  by_cases hne : gap i = []
  · cases ts with
    | nil =>
      rw [written, hne]
      exact nofun
    | cons u ts =>
      obtain ⟨hlexeme, hword⟩ := hts u rfl
      rw [written, hne, List.nil_append]
      generalize hkind : u.kind = kind at hlexeme
      generalize u.value.toList = v at hlexeme
      cases hlexeme with
      | number => exact absurd (.inl hkind) hword
      | identifier => exact absurd (.inr hkind) hword
      | operator hmark =>
        rintro _ ⟨⟩
        exact .inr (.inl hmark)
      | punctuation hmark =>
        rintro _ ⟨⟩
        exact .inr (.inr hmark)
  · cases ts with
    | nil =>
      have h := hblank (r := []) hne
      rwa [List.append_nil] at h
    | cons u ts => exact hblank hne

/-- **Tokens written out with blanks between them are read back**, if no two words are neighbours. -/
theorem tokenizeFrom_written {gap : Nat → List Char} (hgap : ∀ i, ∀ c ∈ gap i, isBlank c = true) {ts : List Token}
    (hts : ∀ t ∈ ts, Lexeme t.kind t.value.toList) (hseparated : Separated ts) (i offset : Nat) (before : List Char) :
    ∃ us, tokenizeFrom tokenRules skippedKinds offset before (written gap i ts) =
      .ok (us ++ [Token.atEnd (offset + (written gap i ts).length)]) ∧ us.map spelling = ts.map spelling := by
  induction ts generalizing i offset before with
  | nil =>
    obtain ⟨before', hblanks⟩ := tokenizeFrom_blanks (r := []) (hgap i) nofun offset before
    refine ⟨[], ?_, rfl⟩
    rw [List.append_nil] at hblanks
    rw [written, hblanks, tokenizeFrom]
    rfl
  | cons t ts ih =>
    rw [List.forall_mem_cons] at hts
    obtain ⟨hnext, hrest⟩ := List.isChain_cons.mp hseparated
    obtain ⟨c, s, hv, hc⟩ := hts.1.exists_cons
    have hhead : ∀ c ∈ (t.value.toList ++ written gap (i + 1) ts).head?, isBlank c = false := by
      rw [hv]
      rintro _ ⟨⟩
      exact hc
    have hparts : t.kind = "NUMBER" ∨ t.kind = "IDENTIFIER" → Parts (written gap (i + 1) ts) := fun hword =>
      parts_written hgap (fun u hu => ⟨hts.2 u (List.mem_of_mem_head? hu), fun hu' => hnext u hu ⟨hword, hu'⟩⟩) (i + 1)
    obtain ⟨before', hblanks⟩ := tokenizeFrom_blanks (hgap i) hhead offset before
    obtain ⟨us, hus, hspelling⟩ := ih hts.2 hrest (i + 1) (offset + (gap i).length + t.value.toList.length)
      (t.value.toList.reverse ++ before')
    rw [written, hblanks, tokenizeFrom_append (firstMatch_append hts.1 hparts before') (hv ▸ List.cons_ne_nil c s), hus]
    simp only [if_neg hts.1.kind_kept]
    refine ⟨⟨t.kind, String.ofList t.value.toList, offset + (gap i).length, offset + (gap i).length + t.value.toList.length⟩
      :: us, ?_, ?_⟩
    · rw [List.length_append, List.length_append, ← Nat.add_assoc, ← Nat.add_assoc]
      rfl
    · rw [List.map_cons, List.map_cons, hspelling, spelling, spelling, String.ofList_toList]

end Math

end SlotEdit
