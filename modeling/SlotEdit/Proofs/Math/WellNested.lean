import SlotEdit.Math.Tree
import SlotEdit.Proofs.Results
import SlotEdit.Proofs.Syntax.WellNested

/-!
# Proofs/Math/WellNested — expressions are well nested

The tokens of a text stand in order, since no rule takes more characters than there are
(`inOrder_tokenize`).  A reader of expressions makes a well-nested node from where it starts to the
tokens it leaves (`Encloses`); the readers of a chain, an atom, a power and a negation keep this, so
all readers have it, however deep they nest.
-/

namespace SlotEdit

/-- The offsets a token stands on. -/
def Token.span (t : Token) : Span := ⟨t.start, t.stop⟩

/-- A rule that takes no more characters than there are. -/
def TokenRule.Fits (rule : TokenRule) : Prop := ∀ before s, rule.length before s ≤ s.length

theorem firstMatch_le {rules : List TokenRule} (hrules : ∀ rule ∈ rules, rule.Fits) {before s : List Char}
    {kind : String} {n : Nat} (h : firstMatch rules before s = some (kind, n)) : 0 < n ∧ n ≤ s.length := by
  obtain ⟨rule, hrule, hmatch⟩ := List.exists_of_findSome?_eq_some h
  simp only at hmatch
  split at hmatch
  · next hpos =>
    obtain ⟨-, rfl⟩ := Prod.mk.inj (Option.some.inj hmatch)
    exact ⟨hpos, hrules rule hrule before s⟩
  · cases hmatch

/-- **The tokens of a text stand in order**, up to its end. -/
theorem inOrder_tokenizeFrom {rules : List TokenRule} (hrules : ∀ rule ∈ rules, rule.Fits) {skip : List String}
    {offset : Nat} {before rest : List Char} {tokens : List Token}
    (h : tokenizeFrom rules skip offset before rest = .ok tokens) :
    Span.InOrder offset (offset + rest.length) (tokens.map Token.span) := by
  induction offset, before, rest using tokenizeFrom.induct rules generalizing tokens with
  | case1 offset before =>
    rw [tokenizeFrom] at h
    obtain rfl := Except.ok.inj h
    exact Span.inOrder_singleton (Nat.le_refl _) (Nat.le_refl _) (Nat.le_refl _)
  | case2 offset before c tail hnone =>
    rw [tokenizeFrom, hnone] at h
    cases h
  | case3 offset before c tail kind n hsome lexeme =>
    rename_i ih
    obtain ⟨hpos, hle⟩ := firstMatch_le hrules hsome
    rw [tokenizeFrom, hsome] at h
    obtain ⟨more, hmore, h⟩ := bind_eq_ok.mp h
    have hrest := (ih hmore).widen (Nat.le_refl _)
      (show offset + n + (tail.drop (n - 1)).length ≤ offset + (c :: tail).length by
        rw [List.length_drop, List.length_cons]; rw [List.length_cons] at hle; omega)
    obtain rfl := Except.ok.inj h
    split
    · exact hrest.widen (Nat.le_add_right _ _) (Nat.le_refl _)
    · exact ⟨Nat.le_refl _, Nat.le_add_right _ _, hrest⟩

namespace Math

/-! ## The rules -/

theorem length_takeWhile_drop_le (p : Char → Bool) (n : Nat) (s : List Char) :
    ((s.drop n).takeWhile p).length ≤ s.length - n :=
  List.length_drop ▸ (List.takeWhile_prefix p).length_le

theorem exponentLength_le (s : List Char) : exponentLength s ≤ s.length := by
  have hdigits := length_takeWhile_drop_le isDecimalDigit
  cases s with
  | nil => exact Nat.le_refl 0
  | cons c rest =>
    have h₀ := hdigits 0 rest
    have h₁ := hdigits 1 rest
    grind [exponentLength]

theorem significandLength_le (s : List Char) : significandLength s ≤ s.length := by
  have hwhole := length_takeWhile_drop_le isDecimalDigit 0 s
  rw [significandLength]
  simp only
  split
  · next rest hrest =>
    have hfraction := length_takeWhile_drop_le isDecimalDigit 0 rest
    have hlength := congrArg List.length hrest
    rw [List.length_drop, List.length_cons] at hlength
    split
    · exact Nat.zero_le _
    · simp only [List.drop_zero] at hfraction hwhole
      omega
  · exact hwhole

theorem numberLength_le (s : List Char) : numberLength s ≤ s.length := by
  have hsignificand := significandLength_le s
  rw [numberLength]
  split
  · exact Nat.zero_le _
  · have hexponent := exponentLength_le (s.drop (significandLength s))
    rw [List.length_drop] at hexponent
    omega

theorem identifierLength_le (s : List Char) : identifierLength s ≤ s.length := by
  cases s with
  | nil => exact Nat.le_refl 0
  | cons c rest =>
    have hrest := length_takeWhile_drop_le isAsciiWord 0 rest
    rw [identifierLength, List.length_cons]
    split
    · exact (Nat.add_comm _ _).trans_le (Nat.succ_le_succ hrest)
    · exact Nat.zero_le _

theorem oneOf_le (chars s : List Char) : oneOf chars s ≤ s.length := by
  cases s with
  | nil => exact Nat.le_refl 0
  | cons c rest =>
    rw [oneOf]
    split
    · exact Nat.succ_le_succ (Nat.zero_le _)
    · exact Nat.zero_le _

theorem fits_of_mem_tokenRules : ∀ rule ∈ tokenRules, rule.Fits := by
  refine List.forall_mem_cons.mpr ⟨fun _ s => length_takeWhile_drop_le isBlank 0 s, List.forall_mem_cons.mpr
    ⟨fun _ => numberLength_le, List.forall_mem_cons.mpr ⟨fun _ => identifierLength_le, List.forall_mem_cons.mpr
    ⟨fun _ => oneOf_le _, List.forall_mem_singleton.mpr fun _ => oneOf_le _⟩⟩⟩⟩

/-! ## The readers -/

/-- The spans of tokens. -/
def spans (tokens : List Token) : List Span := tokens.map Token.span

/-- **A reader that makes well-nested nodes** between where it starts and the tokens it leaves. -/
def Encloses (r : Reader) : Prop :=
  ∀ ⦃a b tokens node rest⦄, Span.InOrder a b (spans tokens) → r tokens = .ok (node, rest) →
    node.WellNested ∧ a ≤ node.span.start ∧ Span.InOrder node.span.stop b (spans rest)

/-- A token that is not at the end is the first of the list. -/
theorem exists_cons {tokens : List Token} (h : (current tokens).kind ≠ "EOF") :
    ∃ rest, tokens = current tokens :: rest := by
  cases tokens with
  | nil => exact absurd rfl h
  | cons t rest => exact ⟨rest, rfl⟩

/-- What is in order from a token that is not at the end. -/
theorem inOrder_current {tokens : List Token} {a b : Nat} (h : Span.InOrder a b (spans tokens))
    (hkind : (current tokens).kind ≠ "EOF") : a ≤ (current tokens).start ∧
      (current tokens).start ≤ (current tokens).stop ∧
      Span.InOrder (current tokens).stop b (spans (tokens.drop 1)) := by
  obtain ⟨rest, hrest⟩ := exists_cons hkind
  rw [hrest] at h ⊢
  exact h

theorem inOrder_of_kind {tokens : List Token} {a b : Nat} (h : Span.InOrder a b (spans tokens))
    {kind : String} (hkind : ((current tokens).kind == kind) = true) (hne : kind ≠ "EOF") :
    a ≤ (current tokens).start ∧ (current tokens).start ≤ (current tokens).stop ∧
      Span.InOrder (current tokens).stop b (spans (tokens.drop 1)) :=
  inOrder_current h (eq_of_beq hkind ▸ hne)

theorem inOrder_of_isThe {tokens : List Token} {a b : Nat} (h : Span.InOrder a b (spans tokens))
    {kind value : String} (hthe : isThe (current tokens) kind value = true) (hne : kind ≠ "EOF") :
    a ≤ (current tokens).start ∧ (current tokens).start ≤ (current tokens).stop ∧
      Span.InOrder (current tokens).stop b (spans (tokens.drop 1)) :=
  inOrder_of_kind h (Bool.and_eq_true_iff.mp hthe).1 hne

theorem wellNested_operation {left right : Node} (hleft : left.WellNested) (hright : right.WellNested)
    (h : left.span.stop ≤ right.span.start) (operator : String) : (operation left operator right).WellNested :=
  Node.wellNested_mk.mpr ⟨⟨Nat.le_refl _, hleft.start_le_stop, h, hright.start_le_stop, Nat.le_refl _⟩,
    List.forall_mem_cons.mpr ⟨hleft, List.forall_mem_singleton.mpr hright⟩⟩

/-- Each operator of a chain makes a node that starts where the chain does. -/
theorem wellNested_chainFrom {operand : Reader} (hoperand : Encloses operand) {operators : List String}
    {turns b : Nat} {left node : Node} {tokens rest : List Token} (hleft : left.WellNested)
    (horder : Span.InOrder left.span.stop b (spans tokens))
    (h : chainFrom operand operators turns left tokens = .ok (node, rest)) :
    node.WellNested ∧ node.span.start = left.span.start ∧ Span.InOrder node.span.stop b (spans rest) := by
  induction turns generalizing left tokens with
  | zero =>
    obtain ⟨rfl, rfl⟩ := Prod.mk.inj (Except.ok.inj h)
    exact ⟨hleft, rfl, horder⟩
  | succ turns ih =>
    rw [chainFrom] at h
    simp only at h
    split at h
    · next hoperator =>
      obtain ⟨⟨right, rest'⟩, hright, h⟩ := bind_eq_ok.mp h
      obtain ⟨hle, hle', hrest⟩ := inOrder_of_kind horder (Bool.and_eq_true_iff.mp hoperator).1 (by decide)
      obtain ⟨hnested, hstart, hrest⟩ := hoperand hrest hright
      obtain ⟨hnode, hstart', horder'⟩ := ih (wellNested_operation hleft hnested
        (hle.trans (hle'.trans hstart)) _) hrest h
      exact ⟨hnode, hstart', horder'⟩
    · obtain ⟨rfl, rfl⟩ := Prod.mk.inj (Except.ok.inj h)
      exact ⟨hleft, rfl, horder⟩

theorem encloses_chain {operand : Reader} (hoperand : Encloses operand) (operators : List String) :
    Encloses (chain operand operators) := by
  intro a b tokens node rest horder h
  obtain ⟨⟨left, rest'⟩, hleft, h⟩ := bind_eq_ok.mp h
  obtain ⟨hnested, hstart, hrest⟩ := hoperand horder hleft
  obtain ⟨hnode, hstart', horder'⟩ := wellNested_chainFrom hoperand hnested hrest h
  exact ⟨hnode, hstart'.symm ▸ hstart, horder'⟩

theorem encloses_expression {unary : Reader} (h : Encloses unary) : Encloses (expression unary) :=
  encloses_chain (encloses_chain h _) _

/-- The arguments of a call stand in order up to where its closing parenthesis ends. -/
theorem inOrder_arguments {argument : Reader} (hargument : Encloses argument) {turns a b stop : Nat}
    {tokens rest : List Token} {nodes : List Node} (horder : Span.InOrder a b (spans tokens))
    (h : arguments argument turns tokens = .ok (nodes, stop, rest)) :
    Span.InOrder a stop (nodes.map Node.span) ∧ (∀ n ∈ nodes, n.WellNested) ∧ Span.InOrder stop b (spans rest) := by
  induction turns generalizing a tokens nodes with
  | zero => cases h
  | succ turns ih =>
    rw [arguments] at h
    obtain ⟨⟨node, rest'⟩, hnode, h⟩ := bind_eq_ok.mp h
    obtain ⟨hnested, hstart, hrest⟩ := hargument horder hnode
    simp only at h
    split at h
    · next hclose =>
      obtain ⟨hle, hle', horder'⟩ := inOrder_of_isThe hrest hclose (by decide)
      cases pure_eq_ok.mp h
      exact ⟨Span.inOrder_singleton hstart hnested.start_le_stop (hle.trans hle'),
        List.forall_mem_singleton.mpr hnested, horder'⟩
    · split at h
      · next hcomma =>
        obtain ⟨hle, hle', horder'⟩ := inOrder_of_isThe hrest hcomma (by decide)
        obtain ⟨⟨more, stop', last⟩, hmore, h⟩ := bind_eq_ok.mp h
        cases pure_eq_ok.mp h
        obtain ⟨hmore, hnodes, hlast⟩ := ih horder' hmore
        exact ⟨⟨hstart, hnested.start_le_stop, hmore.widen (hle.trans hle') (Nat.le_refl _)⟩,
          List.forall_mem_cons.mpr ⟨hnested, hnodes⟩, hlast⟩
      · cases h

/-- A call reaches from its name to its closing parenthesis. -/
theorem wellNested_call {name : Token} (hname : name.start ≤ name.stop) {nodes : List Node} {stop : Nat}
    (horder : Span.InOrder name.stop stop (nodes.map Node.span)) (hnodes : ∀ n ∈ nodes, n.WellNested) :
    (Node.mk (.math .functionCall) ⟨name.start, stop⟩
      (.mk (.math (.variable name.value)) ⟨name.start, name.stop⟩ [] :: nodes)).WellNested :=
  Node.wellNested_mk.mpr ⟨⟨Nat.le_refl _, hname, horder⟩,
    List.forall_mem_cons.mpr ⟨Node.wellNested_leaf hname, hnodes⟩⟩

/-- Numbers and variables are leaves over their tokens; calls and groups reach from their first token
to their closing parenthesis. -/
theorem encloses_atom {inner : Reader} (hinner : Encloses inner) : Encloses (atom inner) := by
  intro a b tokens node rest horder h
  rw [atom] at h
  simp only at h
  split at h
  · next hkind =>
    obtain ⟨hstart, hle, hrest⟩ := inOrder_of_kind horder hkind (by decide)
    split at h
    · obtain ⟨rfl, rfl⟩ := Prod.mk.inj (Except.ok.inj h)
      exact ⟨Node.wellNested_leaf hle, hstart, hrest⟩
    · cases h
  · split at h
    · next hkind =>
      obtain ⟨hstart, hle, hrest⟩ := inOrder_of_kind horder hkind (by decide)
      split at h
      · next hopen =>
        obtain ⟨hopen, hopen', hinside⟩ := inOrder_of_isThe hrest hopen (by decide)
        split at h
        · next hclose =>
          obtain ⟨hclose, hclose', horder'⟩ := inOrder_of_isThe hinside hclose (by decide)
          cases pure_eq_ok.mp h
          exact ⟨wellNested_call hle (hopen.trans (hopen'.trans (hclose.trans hclose'))) fun _ hn => (nomatch hn),
            hstart, horder'⟩
        · obtain ⟨⟨nodes, stop, last⟩, hnodes, h⟩ := bind_eq_ok.mp h
          obtain ⟨horder', hnested, hlast⟩ := inOrder_arguments hinner hinside hnodes
          cases pure_eq_ok.mp h
          exact ⟨wellNested_call hle (horder'.widen (hopen.trans hopen') (Nat.le_refl _)) hnested, hstart, hlast⟩
      · obtain ⟨rfl, rfl⟩ := Prod.mk.inj (Except.ok.inj h)
        exact ⟨Node.wellNested_leaf hle, hstart, hrest⟩
    · split at h
      · next hopen =>
        obtain ⟨hstart, hle, hinside⟩ := inOrder_of_isThe horder hopen (by decide)
        obtain ⟨⟨content, rest'⟩, hcontent, h⟩ := bind_eq_ok.mp h
        obtain ⟨hnested, hstart', hrest⟩ := hinner hinside hcontent
        simp only at h
        split at h
        · next hclose =>
          obtain ⟨hclose, hclose', horder'⟩ := inOrder_of_isThe hrest hclose (by decide)
          obtain ⟨rfl, rfl⟩ := Prod.mk.inj (Except.ok.inj h)
          exact ⟨Node.wellNested_mk.mpr ⟨Span.inOrder_singleton (hle.trans hstart') hnested.start_le_stop
            (hclose.trans hclose'), List.forall_mem_singleton.mpr hnested⟩, hstart, horder'⟩
        · cases h
      · cases h

theorem encloses_power {inner unary : Reader} (hinner : Encloses inner) (hunary : Encloses unary) :
    Encloses (power inner unary) := by
  intro a b tokens node rest horder h
  obtain ⟨⟨base, rest'⟩, hbase, h⟩ := bind_eq_ok.mp h
  obtain ⟨hnested, hstart, hrest⟩ := encloses_atom hinner horder hbase
  simp only at h
  split at h
  · next hcaret =>
    obtain ⟨hle, hle', hbehind⟩ := inOrder_of_isThe hrest hcaret (by decide)
    obtain ⟨⟨exponent, last⟩, hexponent, h⟩ := bind_eq_ok.mp h
    obtain ⟨hnested', hstart', hlast⟩ := hunary hbehind hexponent
    obtain ⟨rfl, rfl⟩ := Prod.mk.inj (Except.ok.inj h)
    exact ⟨wellNested_operation hnested hnested' (hle.trans (hle'.trans hstart')) _, hstart, hlast⟩
  · obtain ⟨rfl, rfl⟩ := Prod.mk.inj (Except.ok.inj h)
    exact ⟨hnested, hstart, hrest⟩

/-! ## Negations and powers -/

/-- The reader of what stands in parentheses, with so many frames left for it. -/
def contentReader (frames : Nat) : Reader :=
  match frames with
  | frames + 4 => expression (unary frames)
  | _ => outOfFrames

/-- The reader of an exponent, with so many frames left for it. -/
def exponentReader (frames : Nat) : Reader :=
  match frames with
  | frames + 1 => unary frames
  | 0 => outOfFrames

theorem unary_succ (frames : Nat) (tokens : List Token) : unary (frames + 1) tokens =
    if isThe (current tokens) "OPERATOR" "-" then do
      let (operand, rest) ← unary frames (tokens.drop 1)
      pure (.mk (.math .negation) ⟨(current tokens).start, operand.span.stop⟩ [operand], rest)
    else power (contentReader frames) (exponentReader frames) tokens := by
  rcases frames with _ | _ | _ | _ | frames <;> rfl

theorem contentReader_cases {motive : Reader → Prop} (frames : Nat) (hnone : motive outOfFrames)
    (h : ∀ f ≤ frames, motive (expression (unary f))) : motive (contentReader frames) := by
  rw [contentReader.eq_def]
  split
  · exact h _ (Nat.le_add_right _ 4)
  · exact hnone

theorem exponentReader_cases {motive : Reader → Prop} (frames : Nat) (hnone : motive outOfFrames)
    (h : ∀ f ≤ frames, motive (unary f)) : motive (exponentReader frames) := by
  rw [exponentReader.eq_def]
  split
  · exact h _ (Nat.le_add_right _ 1)
  · exact hnone

theorem encloses_outOfFrames : Encloses outOfFrames := fun _ _ _ _ _ _ h => nomatch h

/-- **Negations and powers are well nested**, however deep they nest. -/
theorem encloses_unary (frames : Nat) : Encloses (unary frames) := by
  induction frames using Nat.strongRecOn with
  | ind frames ih =>
    cases frames with
    | zero => exact encloses_outOfFrames
    | succ frames =>
    intro a b tokens node rest horder h
    rw [unary_succ] at h
    split at h
    · next hminus =>
      obtain ⟨hstart, hle, hbehind⟩ := inOrder_of_isThe horder hminus (by decide)
      obtain ⟨⟨operand, last⟩, hoperand, h⟩ := bind_eq_ok.mp h
      obtain ⟨hnested, hstart', hlast⟩ := ih frames (Nat.lt_succ_self frames) hbehind hoperand
      obtain ⟨rfl, rfl⟩ := Prod.mk.inj (Except.ok.inj h)
      exact ⟨Node.wellNested_mk.mpr ⟨Span.inOrder_singleton (hle.trans hstart') hnested.start_le_stop (Nat.le_refl _),
        List.forall_mem_singleton.mpr hnested⟩, hstart, hlast⟩
    · refine encloses_power ?_ ?_ horder h
      · exact contentReader_cases frames encloses_outOfFrames fun f hf => encloses_expression (ih f (Nat.lt_succ_of_le hf))
      · exact exponentReader_cases frames encloses_outOfFrames fun f hf => ih f (Nat.lt_succ_of_le hf)

/-- **The tree of an expression is well nested** and inside the text. -/
theorem wellNested_ofText [Interpreter] {text : String} {root : Node} (h : ofText text = .ok root) :
    root.WellNested ∧ root.span.stop ≤ text.toList.length := by
  rw [ofText] at h
  split at h
  · next tokens htokens =>
    have horder : Span.InOrder 0 text.toList.length (spans tokens) :=
      Nat.zero_add text.toList.length ▸ inOrder_tokenizeFrom fits_of_mem_tokenRules htokens
    obtain ⟨⟨node, rest⟩, hnode, h⟩ := bind_eq_ok.mp h
    obtain ⟨hnested, -, hrest⟩ := encloses_expression (encloses_unary frameLimit) horder hnode
    simp only at h
    split at h
    · obtain rfl := Except.ok.inj h
      exact ⟨hnested, hrest.le⟩
    · cases h
  · cases h

end Math

end SlotEdit
