import SlotEdit.Proofs.Math.Writing

/-!
# Proofs/Math/Parsing — a text is parsed exactly when the grammar derives its tokens

`ofText_eq_ok` puts the readers and the tokens of a text together.  No phrase has two words side by
side (`separated_sentence`), so whatever blanks a tree is written out with, none included, it is
parsed back to the same tree.
-/

namespace SlotEdit.Math

variable {p : Phrase} {operators : List String} {ts us : List Token} {n : Node}

/-! ## Words apart -/

theorem Is.not_isWord {t : Token} {kind value : String} (h : Is t kind value) (hnumber : kind ≠ "NUMBER")
    (hidentifier : kind ≠ "IDENTIFIER") : ¬IsWord t :=
  not_or.mpr ⟨h.1 ▸ hnumber, h.1 ▸ hidentifier⟩

theorem IsOperator.not_isWord {t : Token} (h : IsOperator operators t) : ¬IsWord t :=
  not_or.mpr ⟨h.1 ▸ by decide, h.1 ▸ by decide⟩

/-- Tokens with no word between them stay apart. -/
theorem separated_append_cons {t : Token} (hts : Separated ts) (ht : ¬IsWord t) (hus : Separated us) :
    Separated (ts ++ t :: us) := by
  refine hts.append (List.isChain_cons.mpr ⟨fun u _ h => ht h.1, hus⟩) fun u _ t' ht' h => ?_
  obtain rfl := Option.some.inj ht'
  exact ht h.2

theorem separated_nil : Separated [] := List.isChain_nil

theorem separated_singleton (t : Token) : Separated [t] := List.isChain_singleton t

theorem separated_cons {t : Token} (ht : ¬IsWord t) (hus : Separated us) : Separated (t :: us) :=
  separated_append_cons separated_nil ht hus

/-- **A phrase without two words side by side.** -/
def Parted (p : Phrase) : Prop := ∀ ⦃ts n⦄, p ts n → Separated ts

theorem parted_chain (hp : Parted p) : Parted (Chain p operators) := by
  intro ts n h
  induction h with
  | single hoperand => exact hp hoperand
  | more _ hop hoperand ih => exact separated_append_cons ih hop.not_isWord (hp hoperand)

theorem parted_arguments (hp : Parted p) {ns : List Node} {stop : Nat} (h : Arguments p ts ns stop) : Separated ts := by
  induction h with
  | last hargument hclose =>
    exact separated_append_cons (hp hargument) (hclose.not_isWord (by decide) (by decide)) separated_nil
  | more hargument hcomma _ ih =>
    exact separated_append_cons (hp hargument) (hcomma.not_isWord (by decide) (by decide)) ih

theorem parted_atom (hp : Parted p) : Parted (Atom p) := by
  intro ts n h
  cases h with
  | number | name => exact separated_singleton _
  | emptyCall _ hopening hclose =>
    exact separated_append_cons (separated_singleton _) (hopening.not_isWord (by decide) (by decide))
      (separated_singleton _)
  | call _ hopening harguments =>
    exact separated_append_cons (separated_singleton _) (hopening.not_isWord (by decide) (by decide))
      (parted_arguments hp harguments)
  | group hopening hinner hclose =>
    exact separated_cons (hopening.not_isWord (by decide) (by decide))
      (separated_append_cons (hp hinner) (hclose.not_isWord (by decide) (by decide)) separated_nil)

theorem parted_signed {operand content exponent : Phrase} (hoperand : Parted operand) (hcontent : Parted content)
    (hexponent : Parted exponent) : Parted (Signed operand content exponent) := by
  intro ts n h
  cases h with
  | negation hminus h => exact separated_cons (hminus.not_isWord (by decide) (by decide)) (hoperand h)
  | power hpower =>
    cases hpower with
    | atom h => exact parted_atom hcontent h
    | raised hbase hcaret h =>
      exact separated_append_cons (parted_atom hcontent hbase) (hcaret.not_isWord (by decide) (by decide)) (hexponent h)

theorem parted_unary (frames : Nat) : Parted (Unary frames) :=
  unary_induction (fun _ _ h => h.elim) (fun h => parted_chain (parted_chain h)) parted_signed frames

/-- **No expression has two words side by side.** -/
theorem separated_sentence {frames : Nat} (h : Sentence frames ts n) : Separated ts :=
  parted_chain (parted_chain (parted_unary frames)) h

/-! ## Texts -/

/-- The token is no whole number of more than `digitLimit` digits. -/
def FewDigits (t : Token) : Prop :=
  t.kind = "NUMBER" → IsWhole t.value.toList → t.value.length ≤ digitLimit

theorem Lexeme.number_of_kind {kind : String} {v : List Char} (h : Lexeme kind v) (hkind : kind = "NUMBER") :
    Number v := by
  cases h with
  | number h => exact h
  | identifier | operator | punctuation => exact absurd hkind (by decide)

theorem hasValue_iff {t : Token} (h : Lexeme t.kind t.value.toList) : HasValue t ↔ FewDigits t := by
  refine forall_congr' fun hkind => ?_
  have hvalue := exists_numberValue (h.number_of_kind hkind)
  rwa [String.ofList_toList, String.length_toList] at hvalue

theorem Lexeme.kind_ne_end {kind : String} {v : List Char} (h : Lexeme kind v) : kind ≠ "EOF" := by
  cases h with
  | _ => decide

/-- **A text is an expression when the grammar derives its tokens**, its whole numbers being short enough. -/
theorem ofText_eq_ok [Interpreter] {text : String} {root : Node} :
    ofText text = .ok root ↔ ∃ ts, tokenize tokenRules skippedKinds text = .ok (ts ++ [Token.atEnd text.length]) ∧
      (∀ t ∈ ts, FewDigits t) ∧ Sentence frameLimit ts root := by
  have hbody {tokens : List Token} (h : tokenize tokenRules skippedKinds text = .ok tokens) :
      ∃ ts, tokens = ts ++ [Token.atEnd text.length] ∧ ∀ t ∈ ts, Lexeme t.kind t.value.toList := by
    obtain ⟨ts, hts, hgiven⟩ := exists_body fits_of_mem_tokenRules h
    rw [Nat.zero_add, String.length_toList] at hts
    exact ⟨ts, hts, fun t ht => lexeme_of_isGiven (hgiven t ht)⟩
  have htokens {ts : List Token} (hts : ∀ t ∈ ts, Lexeme t.kind t.value.toList) :
      ofTokens (ts ++ [Token.atEnd text.length]) = .ok root ↔
        (∀ t ∈ ts, FewDigits t) ∧ Sentence frameLimit ts root := by
    rw [ofTokens_eq_ok (fun t ht => (hts t ht).kind_ne_end) rfl]
    exact and_congr_left fun _ => forall₂_congr fun t ht => hasValue_iff (hts t ht)
  rw [ofText]
  constructor
  · intro h
    split at h
    · next tokens hfound =>
      obtain ⟨ts, rfl, hts⟩ := hbody hfound
      exact ⟨ts, hfound, (htokens hts).mp h⟩
    · cases h
  · rintro ⟨ts, hfound, h⟩
    obtain ⟨ts', heq, hts⟩ := hbody hfound
    obtain rfl := (List.append_left_inj _).mp heq
    rw [hfound]
    exact (htokens hts).mpr h

/-- **The parser decides the grammar**: it gives a tree exactly for the texts whose tokens the grammar
derives, nested inside the limit and with whole numbers of few enough digits, and the tree is the one
derived.  A tree that is written out with any blanks between its tokens, or none, is parsed back to the
same tree. -/
theorem ofText_decides_grammar [Interpreter] :
    (∀ text root, ofText text = .ok root ↔
      ∃ ts, tokenize tokenRules skippedKinds text = .ok (ts ++ [Token.atEnd text.length]) ∧
        (∀ t ∈ ts, FewDigits t) ∧ Sentence frameLimit ts root) ∧
    ∀ (gap : Nat → List Char) (ts : List Token) (n : Node), (∀ i, ∀ c ∈ gap i, isBlank c = true) →
      (∀ t ∈ ts, Lexeme t.kind t.value.toList ∧ FewDigits t) → Sentence frameLimit ts n →
      ∃ root, ofText (String.ofList (written gap 0 ts)) = .ok root ∧ root.unplaced = n.unplaced := by
  refine ⟨fun text root => ofText_eq_ok, fun gap ts n hgap hts hsentence => ?_⟩
  obtain ⟨us, hus, hspelling⟩ :=
    tokenizeFrom_written hgap (fun t ht => (hts t ht).1) (separated_sentence hsentence) 0 0 []
  obtain ⟨root, hroot, hsame⟩ := portable_sentence frameLimit hsentence hspelling
  refine ⟨root, ofText_eq_ok.mpr ⟨us, ?_, ?_, hroot⟩, hsame⟩
  · rw [tokenize, String.toList_ofList, hus, Nat.zero_add, String.length_ofList]
  · intro u hu
    obtain ⟨t, ht, hsame⟩ := List.mem_map.mp (hspelling ▸ List.mem_map_of_mem (f := spelling) hu)
    obtain ⟨hkind, hvalue⟩ := spelling_eq_iff.mp hsame
    have hfew := (hts t ht).2
    rwa [FewDigits, hkind, hvalue] at hfew

theorem ofText_decides_grammar_negated_power : ∃ root, ofText "- x^y" = .ok root ∧
    root.unplaced = .mk (.math .negation) ⟨0, 0⟩ [.mk (.math .exponent) ⟨0, 0⟩
      [.mk (.math (.variable "x")) ⟨0, 0⟩ [], .mk (.math (.variable "y")) ⟨0, 0⟩ []]] := by
  let gap (i : Nat) : List Char := if i = 1 then [' '] else []
  let minus : Token := ⟨"OPERATOR", "-", 0, 1⟩
  let x : Token := ⟨"IDENTIFIER", "x", 1, 2⟩
  let caret : Token := ⟨"OPERATOR", "^", 2, 3⟩
  let y : Token := ⟨"IDENTIFIER", "y", 3, 4⟩
  have hexponent (frames : Nat) : Unary (frames + 1) [y] (variableNode y) := by
    rw [unary_eq_signed]
    exact .power (.atom (.name rfl))
  have hpower (frames : Nat) : Unary (frames + 3) [x, caret, y] (operation (variableNode x) "^" (variableNode y)) := by
    rw [unary_eq_signed]
    exact .power (.raised (.name rfl) ⟨rfl, rfl⟩ (hexponent frames))
  have hsentence : Sentence frameLimit [minus, x, caret, y] _ :=
    .single (.single (.negation ⟨rfl, rfl⟩ (hpower 986)))
  have hgap : ∀ i, ∀ c ∈ gap i, isBlank c = true := by
    intro i c hc
    by_cases hi : i = 1
    · rw [show gap i = [' '] from if_pos hi] at hc
      exact List.mem_singleton.mp hc ▸ by decide
    · rw [show gap i = [] from if_neg hi] at hc
      exact nomatch hc
  have htext : String.ofList (written gap 0 [minus, x, caret, y]) = "- x^y" := by decide
  have hmark {t : Token} {c : Char} (hkind : t.kind = "OPERATOR") (hvalue : t.value.toList = [c])
      (hc : c ∈ operatorMarks) : Lexeme t.kind t.value.toList ∧ FewDigits t :=
    ⟨hkind ▸ hvalue ▸ .operator hc, fun h => absurd (hkind.symm.trans h) (by decide)⟩
  have hname {t : Token} {c : Char} (hkind : t.kind = "IDENTIFIER") (hvalue : t.value.toList = [c])
      (hc : (isAsciiLetter c || c == '_') = true) : Lexeme t.kind t.value.toList ∧ FewDigits t :=
    ⟨hkind ▸ hvalue ▸ .identifier hc nofun, fun h => absurd (hkind.symm.trans h) (by decide)⟩
  have hlexemes : ∀ t ∈ [minus, x, caret, y], Lexeme t.kind t.value.toList ∧ FewDigits t :=
    List.forall_mem_cons.mpr ⟨hmark rfl String.toList_ofList (by decide), List.forall_mem_cons.mpr
      ⟨hname rfl String.toList_ofList (by decide), List.forall_mem_cons.mpr
      ⟨hmark rfl String.toList_ofList (by decide), List.forall_mem_singleton.mpr
      (hname rfl String.toList_ofList (by decide))⟩⟩⟩
  obtain ⟨root, hroot, hsame⟩ := ofText_decides_grammar.2 gap _ _ hgap hlexemes hsentence
  rw [htext] at hroot
  exact ⟨root, hroot, hsame⟩

end SlotEdit.Math
