import SlotEdit.Proofs.Math.WellNested

/-!
# Proofs/Math/Grammar — the grammar of arithmetic, and its readers

A *phrase* tells which tokens make it up and which node they make.  `Chain`, `Atom`, `Power` and
`Signed` are the productions

    expr  := term (('+' | '-') term)*        unary := '-' unary | power
    term  := unary (('*' | '/') unary)*      power := atom ['^' unary]
    atom  := NUMBER | IDENTIFIER | IDENTIFIER '(' [expr (',' expr)*] ')' | '(' expr ')'

each over the phrases it is made of.  Every reader *reads* the phrase it is named after (`Reads`):
what it takes is one, and of a phrase with a token behind it that does not go on with it the reader
takes all, whatever follows.
-/

namespace SlotEdit.Math

/-! ## Productions -/

/-- Which tokens make up a phrase, and the node they make. -/
abbrev Phrase := List Token → Node → Prop

/-- The token is of a kind and has a value. -/
def Is (t : Token) (kind value : String) : Prop := t.kind = kind ∧ t.value = value

/-- The token is one of some operators. -/
def IsOperator (operators : List String) (t : Token) : Prop := t.kind = "OPERATOR" ∧ t.value ∈ operators

/-- **Operands with operators between them**, which associate to the left. -/
inductive Chain (operand : Phrase) (operators : List String) : Phrase
  | single {ts : List Token} {n : Node} : operand ts n → Chain operand operators ts n
  | more {ts us : List Token} {op : Token} {left right : Node} : Chain operand operators ts left →
      IsOperator operators op → operand us right →
      Chain operand operators (ts ++ op :: us) (operation left op.value right)

/-- Sums and differences of products and quotients. -/
def Expression (unary : Phrase) : Phrase := Chain (Chain unary ["*", "/"]) ["+", "-"]

/-- Arguments with commas between them and the closing parenthesis, which ends at `stop`. -/
inductive Arguments (argument : Phrase) : List Token → List Node → Nat → Prop
  | last {ts : List Token} {close : Token} {n : Node} : argument ts n → Is close "PUNCTUATION" ")" →
      Arguments argument (ts ++ [close]) [n] close.stop
  | more {ts us : List Token} {comma : Token} {n : Node} {ns : List Node} {stop : Nat} : argument ts n →
      Is comma "PUNCTUATION" "," → Arguments argument us ns stop →
      Arguments argument (ts ++ comma :: us) (n :: ns) stop

/-- The value of a number token. -/
def valueOf (t : Token) : Value :=
  match numberValue t.value with
  | .ok v => v
  | .error _ => .null

/-- The node of a number token. -/
def numberNode (t : Token) : Node := .mk (.math (.number (valueOf t))) ⟨t.start, t.stop⟩ []

/-- The node of an identifier token. -/
def variableNode (t : Token) : Node := .mk (.math (.variable t.value)) ⟨t.start, t.stop⟩ []

/-- The node of a call up to where its closing parenthesis ends. -/
def callNode (name : Token) (arguments : List Node) (stop : Nat) : Node :=
  .mk (.math .functionCall) ⟨name.start, stop⟩ (variableNode name :: arguments)

/-- **A number, a variable, a call or a group.** -/
inductive Atom (inner : Phrase) : Phrase
  | number {t : Token} : t.kind = "NUMBER" → Atom inner [t] (numberNode t)
  | name {t : Token} : t.kind = "IDENTIFIER" → Atom inner [t] (variableNode t)
  | emptyCall {t opening close : Token} : t.kind = "IDENTIFIER" → Is opening "PUNCTUATION" "(" →
      Is close "PUNCTUATION" ")" → Atom inner [t, opening, close] (callNode t [] close.stop)
  | call {t opening : Token} {ts : List Token} {ns : List Node} {stop : Nat} : t.kind = "IDENTIFIER" →
      Is opening "PUNCTUATION" "(" → Arguments inner ts ns stop →
      Atom inner (t :: opening :: ts) (callNode t ns stop)
  | group {opening close : Token} {ts : List Token} {n : Node} : Is opening "PUNCTUATION" "(" → inner ts n →
      Is close "PUNCTUATION" ")" →
      Atom inner (opening :: ts ++ [close]) (.mk (.math .parenthesis) ⟨opening.start, close.stop⟩ [n])

/-- **An atom, perhaps raised to a power.** -/
inductive Power (inner unary : Phrase) : Phrase
  | atom {ts : List Token} {n : Node} : Atom inner ts n → Power inner unary ts n
  | raised {ts us : List Token} {caret : Token} {base exponent : Node} : Atom inner ts base →
      Is caret "OPERATOR" "^" → unary us exponent →
      Power inner unary (ts ++ caret :: us) (operation base "^" exponent)

/-- **A negation or a power**, with what a sign stands in front of, what stands in parentheses, and
exponents. -/
inductive Signed (operand content exponent : Phrase) : Phrase
  | negation {minus : Token} {ts : List Token} {n : Node} : Is minus "OPERATOR" "-" → operand ts n →
      Signed operand content exponent (minus :: ts) (.mk (.math .negation) ⟨minus.start, n.span.stop⟩ [n])
  | power {ts : List Token} {n : Node} : Power content exponent ts n → Signed operand content exponent ts n

/-- No phrase at all. -/
def Nothing : Phrase := fun _ _ => False

/-- **Negations and powers** that nest less than `frames` deep, where a sign counts for one, an exponent for
two, and parentheses for five. -/
def Unary : Nat → Phrase
  | 0 => Nothing
  | frames + 1 => Signed (Unary frames)
    (match frames with
      | frames + 4 => Expression (Unary frames)
      | _ => Nothing)
    (match frames with
      | frames + 1 => Unary frames
      | 0 => Nothing)

/-- **An expression of the grammar** that nests less than `frames` deep. -/
def Sentence (frames : Nat) : Phrase := Expression (Unary frames)

/-- What may stand in parentheses. -/
def ContentPhrase (frames : Nat) : Phrase :=
  match frames with
  | frames + 4 => Sentence frames
  | _ => Nothing

/-- What may be an exponent. -/
def ExponentPhrase (frames : Nat) : Phrase :=
  match frames with
  | frames + 1 => Unary frames
  | 0 => Nothing

theorem unary_eq_signed (frames : Nat) :
    Unary (frames + 1) = Signed (Unary frames) (ContentPhrase frames) (ExponentPhrase frames) := by
  rcases frames with _ | _ | _ | _ | frames <;> rfl

theorem content_cases {motive : Phrase → Prop} (frames : Nat) (hnone : motive Nothing)
    (h : ∀ f ≤ frames, motive (Sentence f)) : motive (ContentPhrase frames) := by
  rw [ContentPhrase.eq_def]
  split
  · exact h _ (Nat.le_add_right _ 4)
  · exact hnone

theorem exponent_cases {motive : Phrase → Prop} (frames : Nat) (hnone : motive Nothing)
    (h : ∀ f ≤ frames, motive (Unary f)) : motive (ExponentPhrase frames) := by
  rw [ExponentPhrase.eq_def]
  split
  · exact h _ (Nat.le_add_right _ 1)
  · exact hnone

/-- **What no phrase has and signs and powers keep**, all of them have. -/
theorem unary_induction {motive : Phrase → Prop} (hnone : motive Nothing)
    (hexpression : ∀ {p}, motive p → motive (Expression p))
    (hsigned : ∀ {operand content exponent}, motive operand → motive content → motive exponent →
      motive (Signed operand content exponent)) (frames : Nat) : motive (Unary frames) := by
  induction frames using Nat.strongRecOn with
  | ind frames ih =>
    cases frames with
    | zero => exact hnone
    | succ frames =>
      have hless {f : Nat} (hf : f ≤ frames) : motive (Unary f) := ih f (Nat.lt_succ_of_le hf)
      rw [unary_eq_signed]
      exact hsigned (hless (Nat.le_refl frames)) (content_cases frames hnone fun f hf => hexpression (hless hf))
        (exponent_cases frames hnone fun f hf => hless hf)

/-! ## Readers of phrases -/

/-- The token, if it is a number, has a value. -/
def HasValue (t : Token) : Prop := t.kind = "NUMBER" → ∃ v, numberValue t.value = .ok v

/-- **A reader of a phrase**: the tokens it takes make up the phrase, and it takes a phrase whose numbers
have values when the token behind may follow. -/
structure Reads (r : Reader) (p : Phrase) (follow : Token → Prop) : Prop where
  sound : ∀ ⦃tokens node rest⦄, r tokens = .ok (node, rest) →
    ∃ ts, tokens = ts ++ rest ∧ (∀ t ∈ ts, HasValue t) ∧ p ts node
  complete : ∀ ⦃ts node⦄, p ts node → (∀ t ∈ ts, HasValue t) → ∀ rest, follow (current rest) →
    r (ts ++ rest) = .ok (node, rest)

theorem isThe_iff {t : Token} {kind value : String} : isThe t kind value = true ↔ Is t kind value := by
  rw [isThe, Bool.and_eq_true, beq_iff_eq, beq_iff_eq, Is]

variable {r : Reader} {p : Phrase} {follow : Token → Prop} {operators : List String}

/-- A token that is no end token is the first of the list. -/
theorem Is.exists_cons {tokens : List Token} {kind value : String} (h : Is (current tokens) kind value)
    (hkind : kind ≠ "EOF") : ∃ t us, tokens = t :: us ∧ Is t kind value :=
  let ⟨us, hus⟩ := Math.exists_cons (h.1 ▸ hkind)
  ⟨current tokens, us, hus, h⟩

theorem IsOperator.exists_cons {tokens : List Token} (h : IsOperator operators (current tokens)) :
    ∃ op us, tokens = op :: us ∧ IsOperator operators op :=
  let ⟨us, hus⟩ := Math.exists_cons (h.1 ▸ by decide)
  ⟨current tokens, us, hus, h⟩

/-- A token that is no number asks for no value. -/
theorem hasValue_of_kind_ne {t : Token} (h : t.kind ≠ "NUMBER") : HasValue t := fun hkind => absurd hkind h

theorem IsOperator.hasValue {t : Token} (h : IsOperator operators t) : HasValue t :=
  hasValue_of_kind_ne (h.1 ▸ by decide)

theorem Is.hasValue {t : Token} {kind value : String} (h : Is t kind value) (hkind : kind ≠ "NUMBER") :
    HasValue t := hasValue_of_kind_ne (h.1 ▸ hkind)

/-! ## Chains -/

theorem isOperator_iff {t : Token} :
    (t.kind == "OPERATOR" && t.value ∈ operators) = true ↔ IsOperator operators t := by
  rw [Bool.and_eq_true, beq_iff_eq, decide_eq_true_eq, IsOperator]

theorem chainFrom_of_isOperator {turns : Nat} {left : Node} {op : Token} {tokens : List Token}
    (hop : IsOperator operators op) : chainFrom r operators (turns + 1) left (op :: tokens) =
      (r tokens).bind fun (right, rest) => chainFrom r operators turns (operation left op.value right) rest := by
  rw [chainFrom]
  exact if_pos (isOperator_iff.mpr hop)

theorem chainFrom_of_not_isOperator {turns : Nat} {left : Node} {tokens : List Token}
    (h : ¬IsOperator operators (current tokens)) : chainFrom r operators turns left tokens = .ok (left, tokens) := by
  cases turns with
  | zero => rfl
  | succ turns =>
    rw [chainFrom]
    exact if_neg (mt isOperator_iff.mp h)

/-- What a chain goes on with, after tokens that make up one, makes up a chain with them. -/
theorem sound_chainFrom (h : Reads r p follow) {turns : Nat} {left node : Node} {ts tokens rest : List Token}
    (hleft : Chain p operators ts left) (hchain : chainFrom r operators turns left tokens = .ok (node, rest)) :
    ∃ us, tokens = us ++ rest ∧ (∀ t ∈ us, HasValue t) ∧ Chain p operators (ts ++ us) node := by
  induction turns generalizing ts left tokens with
  | zero =>
    obtain ⟨rfl, rfl⟩ := Prod.mk.inj (Except.ok.inj hchain)
    exact ⟨[], rfl, nofun, (List.append_nil ts).symm ▸ hleft⟩
  | succ turns ih =>
    by_cases hnext : IsOperator operators (current tokens)
    · obtain ⟨op, behind, rfl, hop⟩ := hnext.exists_cons
      rw [chainFrom_of_isOperator hop] at hchain
      obtain ⟨⟨right, _⟩, hright, hbehind⟩ := bind_eq_ok.mp hchain
      obtain ⟨us, rfl, hvalues, hoperand⟩ := h.sound hright
      obtain ⟨more, rfl, hmore, hnode⟩ := ih (hleft.more hop hoperand) hbehind
      refine ⟨op :: us ++ more, ?_, ?_, ?_⟩
      · rw [List.append_assoc, List.cons_append]
      · exact List.forall_mem_append.mpr ⟨List.forall_mem_cons.mpr ⟨hop.hasValue, hvalues⟩, hmore⟩
      · exact List.append_assoc .. ▸ hnode
    · rw [chainFrom_of_not_isOperator hnext] at hchain
      obtain ⟨rfl, rfl⟩ := Prod.mk.inj (Except.ok.inj hchain)
      exact ⟨[], rfl, nofun, (List.append_nil ts).symm ▸ hleft⟩

/-- **A chain is its first operand and what the reader of chains takes behind it**, in as many turns as it
has operators. -/
theorem complete_chainFrom (h : Reads r p follow) (hfollow : ∀ t, IsOperator operators t → follow t)
    {ts : List Token} {node : Node} (hchain : Chain p operators ts node) (hvalues : ∀ t ∈ ts, HasValue t) :
    ∃ first left behind turns, ts = first ++ behind ∧ p first left ∧ turns ≤ behind.length ∧
      (∀ rest, follow (current rest) → follow (current (behind ++ rest))) ∧
      ∀ more rest, follow (current rest) →
        chainFrom r operators (turns + more) left (behind ++ rest) = chainFrom r operators more node rest := by
  induction hchain with
  | @single ts n hoperand =>
    refine ⟨ts, n, [], 0, (List.append_nil ts).symm, hoperand, Nat.le_refl 0, fun _ hrest => hrest, fun more rest _ => ?_⟩
    rw [Nat.zero_add, List.nil_append]
  | @more ts us op left right _ hop hright ih =>
    rw [List.forall_mem_append, List.forall_mem_cons] at hvalues
    obtain ⟨first, n, behind, turns, rfl, hfirst, hturns, hnext, hreads⟩ := ih hvalues.1
    refine ⟨first, n, behind ++ op :: us, turns + 1, List.append_assoc .., hfirst, ?_, fun rest _ => ?_,
      fun more rest hrest => ?_⟩
    · rw [List.length_append, List.length_cons]
      omega
    · rw [List.append_assoc]
      exact hnext _ (hfollow op hop)
    · rw [List.append_assoc, Nat.add_assoc, hreads (1 + more) (op :: us ++ rest) (hfollow op hop), Nat.add_comm 1 more,
        List.cons_append, chainFrom_of_isOperator hop, h.complete hright hvalues.2.2 rest hrest]
      rfl

/-- **A chain is read** where its operands are, if an operator may follow each. -/
theorem reads_chain (h : Reads r p follow) (hfollow : ∀ t, IsOperator operators t → follow t) :
    Reads (chain r operators) (Chain p operators) fun t => follow t ∧ ¬IsOperator operators t where
  sound := by
    intro tokens node rest hchain
    obtain ⟨⟨left, behind⟩, hleft, hrest⟩ := bind_eq_ok.mp hchain
    obtain ⟨ts, rfl, hvalues, hoperand⟩ := h.sound hleft
    obtain ⟨us, rfl, hmore, hnode⟩ := sound_chainFrom h (.single hoperand) hrest
    exact ⟨ts ++ us, (List.append_assoc ..).symm, List.forall_mem_append.mpr ⟨hvalues, hmore⟩, hnode⟩
  complete := by
    intro ts node hchain hvalues rest hrest
    obtain ⟨first, left, behind, turns, rfl, hfirst, hturns, hnext, hreads⟩ :=
      complete_chainFrom h hfollow hchain hvalues
    obtain ⟨more, hmore⟩ : ∃ more, (behind ++ rest).length = turns + more := by
      refine Nat.exists_eq_add_of_le (hturns.trans ?_)
      rw [List.length_append]
      exact Nat.le_add_right _ _
    refine bind_eq_ok.mpr ⟨(left, behind ++ rest), ?_, ?_⟩
    · rw [List.append_assoc]
      exact h.complete hfirst (List.forall_mem_append.mp hvalues).1 _ (hnext rest hrest.1)
    · dsimp only
      rw [hmore, hreads more rest hrest.1]
      exact chainFrom_of_not_isOperator hrest.2

/-! ## Arguments -/

/-- The tokens a phrase starts with. -/
def Starts (t : Token) : Prop :=
  t.kind = "NUMBER" ∨ t.kind = "IDENTIFIER" ∨ Is t "PUNCTUATION" "(" ∨ Is t "OPERATOR" "-"

/-- **A phrase with a first token that starts one**, and no end token inside. -/
structure Proper (p : Phrase) : Prop where
  starts : ∀ ⦃ts node⦄, p ts node → ∃ t us, ts = t :: us ∧ Starts t
  inside : ∀ ⦃ts node⦄, p ts node → ∀ t ∈ ts, t.kind ≠ "EOF"

theorem Is.kind_ne {t : Token} {kind value : String} (h : Is t kind value) {other : String} (hne : kind ≠ other) :
    t.kind ≠ other := h.1 ▸ hne

theorem Is.not {t : Token} {kind value other : String} (h : Is t kind value) (hne : value ≠ other) (kind' : String) :
    ¬Is t kind' other := fun h' => hne (h.2.symm.trans h'.2)

theorem Starts.not_is_close {t : Token} (h : Starts t) : ¬Is t "PUNCTUATION" ")" := by
  rintro ⟨hkind, hvalue⟩
  rcases h with h | h | h | h
  · exact absurd (h.symm.trans hkind) (by decide)
  · exact absurd (h.symm.trans hkind) (by decide)
  · exact absurd (h.2.symm.trans hvalue) (by decide)
  · exact absurd (h.2.symm.trans hvalue) (by decide)

theorem Arguments.starts (hp : Proper p) {ts : List Token} {ns : List Node} {stop : Nat}
    (h : Arguments p ts ns stop) : ∃ t us, ts = t :: us ∧ Starts t := by
  cases h with
  | last hargument _ | more hargument _ _ =>
    obtain ⟨t, us, rfl, ht⟩ := hp.starts hargument
    exact ⟨t, _, List.cons_append, ht⟩

theorem sound_arguments (h : Reads r p follow) {turns stop : Nat} {tokens rest : List Token} {nodes : List Node}
    (harguments : arguments r turns tokens = .ok (nodes, stop, rest)) :
    ∃ ts, tokens = ts ++ rest ∧ (∀ t ∈ ts, HasValue t) ∧ Arguments p ts nodes stop := by
  induction turns generalizing tokens nodes with
  | zero => cases harguments
  | succ turns ih =>
    rw [arguments] at harguments
    obtain ⟨⟨node, behind⟩, hnode, hbehind⟩ := bind_eq_ok.mp harguments
    obtain ⟨ts, rfl, hvalues, hargument⟩ := h.sound hnode
    dsimp only at hbehind
    split at hbehind
    · next hnext =>
      obtain ⟨close, us, rfl, hclose⟩ := (isThe_iff.mp hnext).exists_cons (by decide)
      cases pure_eq_ok.mp hbehind
      refine ⟨ts ++ [close], List.append_cons .., ?_, .last hargument hclose⟩
      exact List.forall_mem_append.mpr ⟨hvalues, List.forall_mem_singleton.mpr (hclose.hasValue (by decide))⟩
    · split at hbehind
      · next hnext =>
        obtain ⟨comma, us, rfl, hcomma⟩ := (isThe_iff.mp hnext).exists_cons (by decide)
        obtain ⟨⟨more, stop', last⟩, hmore, hlast⟩ := bind_eq_ok.mp hbehind
        cases pure_eq_ok.mp hlast
        obtain ⟨us', hus, hmoreValues, hmore⟩ := ih hmore
        refine ⟨ts ++ comma :: us', ?_, ?_, .more hargument hcomma hmore⟩
        · rw [List.append_assoc, List.cons_append, ← hus]
          rfl
        · exact List.forall_mem_append.mpr
            ⟨hvalues, List.forall_mem_cons.mpr ⟨hcomma.hasValue (by decide), hmoreValues⟩⟩
      · cases hbehind

theorem complete_arguments (h : Reads r p follow) (hfollow : ∀ t, Is t "PUNCTUATION" ")" ∨ Is t "PUNCTUATION" "," → follow t)
    {ts : List Token} {nodes : List Node} {stop : Nat} (harguments : Arguments p ts nodes stop)
    (hvalues : ∀ t ∈ ts, HasValue t) {turns : Nat} (hturns : ts.length ≤ turns) (rest : List Token) :
    arguments r turns (ts ++ rest) = .ok (nodes, stop, rest) := by
  induction harguments generalizing turns with
  | @last ts close n hargument hclose =>
    obtain ⟨turns, rfl⟩ : ∃ k, turns = k + 1 := Nat.exists_eq_add_one.mpr (by
      rw [List.length_append, List.length_singleton] at hturns
      omega)
    rw [List.append_assoc, List.singleton_append, arguments,
      h.complete hargument (List.forall_mem_append.mp hvalues).1 (close :: rest) (hfollow close (.inl hclose))]
    exact if_pos (isThe_iff.mpr hclose)
  | @more ts us comma n ns stop hargument hcomma _ ih =>
    rw [List.forall_mem_append, List.forall_mem_cons] at hvalues
    rw [List.length_append, List.length_cons] at hturns
    obtain ⟨turns, rfl⟩ : ∃ k, turns = k + 1 := Nat.exists_eq_add_one.mpr (by omega)
    rw [List.append_assoc, List.cons_append, arguments,
      h.complete hargument hvalues.1 (comma :: (us ++ rest)) (hfollow comma (.inr hcomma))]
    refine (if_neg (mt isThe_iff.mp (hcomma.not (by decide) _))).trans ((if_pos (isThe_iff.mpr hcomma)).trans ?_)
    exact bind_eq_ok.mpr ⟨_, ih hvalues.2.2 (by omega), rfl⟩

/-! ## Atoms -/

/-- No opening parenthesis follows, which would make a call of a variable. -/
def AfterAtom (t : Token) : Prop := ¬Is t "PUNCTUATION" "("

theorem exists_cons_of_kind {tokens : List Token} {kind : String} (h : ((current tokens).kind == kind) = true)
    (hkind : kind ≠ "EOF") : ∃ t us, tokens = t :: us ∧ t.kind = kind :=
  let ⟨us, hus⟩ := Math.exists_cons (eq_of_beq h ▸ hkind)
  ⟨current tokens, us, hus, eq_of_beq h⟩

theorem numberNode_eq {t : Token} {v : Value} (h : numberValue t.value = .ok v) :
    numberNode t = .mk (.math (.number v)) ⟨t.start, t.stop⟩ [] := by
  rw [numberNode, valueOf, h]

theorem sound_atom (h : Reads r p follow) {tokens rest : List Token} {node : Node}
    (hatom : atom r tokens = .ok (node, rest)) :
    ∃ ts, tokens = ts ++ rest ∧ (∀ t ∈ ts, HasValue t) ∧ Atom p ts node := by
  rw [atom] at hatom
  dsimp only at hatom
  split at hatom
  · next hnext =>
    obtain ⟨t, us, rfl, hkind⟩ := exists_cons_of_kind hnext (by decide)
    split at hatom
    · next v hvalue =>
      obtain ⟨rfl, rfl⟩ := Prod.mk.inj (Except.ok.inj hatom)
      exact ⟨[t], rfl, List.forall_mem_singleton.mpr fun _ => ⟨v, hvalue⟩, numberNode_eq hvalue ▸ .number hkind⟩
    · cases hatom
  · split at hatom
    · next hnext =>
      obtain ⟨t, us, rfl, hkind⟩ := exists_cons_of_kind hnext (by decide)
      have hname : HasValue t := hasValue_of_kind_ne (hkind ▸ by decide)
      split at hatom
      · next hnext =>
        obtain ⟨opening, us', hus, hopening⟩ := (isThe_iff.mp hnext).exists_cons (by decide)
        obtain rfl : us = opening :: us' := hus
        split at hatom
        · next hnext =>
          obtain ⟨close, last, hlast, hclose⟩ := (isThe_iff.mp hnext).exists_cons (by decide)
          obtain rfl : us' = close :: last := hlast
          cases pure_eq_ok.mp hatom
          refine ⟨[t, opening, close], rfl, ?_, .emptyCall hkind hopening hclose⟩
          exact List.forall_mem_cons.mpr ⟨hname, List.forall_mem_cons.mpr
            ⟨hopening.hasValue (by decide), List.forall_mem_singleton.mpr (hclose.hasValue (by decide))⟩⟩
        · obtain ⟨⟨nodes, stop, last⟩, hnodes, hlast⟩ := bind_eq_ok.mp hatom
          cases pure_eq_ok.mp hlast
          obtain ⟨ts, hts, hvalues, harguments⟩ := sound_arguments h hnodes
          obtain rfl : us' = ts ++ last := hts
          refine ⟨t :: opening :: ts, rfl, ?_, .call hkind hopening harguments⟩
          exact List.forall_mem_cons.mpr ⟨hname, List.forall_mem_cons.mpr ⟨hopening.hasValue (by decide), hvalues⟩⟩
      · obtain ⟨rfl, rfl⟩ := Prod.mk.inj (Except.ok.inj hatom)
        exact ⟨[t], rfl, List.forall_mem_singleton.mpr hname, .name hkind⟩
    · split at hatom
      · next hnext =>
        obtain ⟨opening, us, rfl, hopening⟩ := (isThe_iff.mp hnext).exists_cons (by decide)
        obtain ⟨⟨content, behind⟩, hcontent, hbehind⟩ := bind_eq_ok.mp hatom
        dsimp only at hbehind
        split at hbehind
        · next hnext =>
          obtain ⟨close, last, rfl, hclose⟩ := (isThe_iff.mp hnext).exists_cons (by decide)
          cases pure_eq_ok.mp hbehind
          obtain ⟨ts, hts, hvalues, hinner⟩ := h.sound hcontent
          obtain rfl : us = ts ++ close :: last := hts
          refine ⟨opening :: ts ++ [close], ?_, ?_, .group hopening hinner hclose⟩
          · rw [List.append_assoc]
            rfl
          · exact List.forall_mem_append.mpr ⟨List.forall_mem_cons.mpr ⟨hopening.hasValue (by decide), hvalues⟩,
              List.forall_mem_singleton.mpr (hclose.hasValue (by decide))⟩
        · cases hbehind
      · cases hatom

theorem complete_atom (h : Reads r p follow) (hp : Proper p)
    (hfollow : ∀ t, Is t "PUNCTUATION" ")" ∨ Is t "PUNCTUATION" "," → follow t) {ts : List Token} {node : Node}
    (hatom : Atom p ts node) (hvalues : ∀ t ∈ ts, HasValue t) (rest : List Token) (hrest : AfterAtom (current rest)) :
    atom r (ts ++ rest) = .ok (node, rest) := by
  have hnumber {t : Token} (hkind : t.kind = "IDENTIFIER") : ¬(t.kind == "NUMBER") = true :=
    mt eq_of_beq (hkind ▸ by decide)
  cases hatom with
  | @number t hkind =>
    obtain ⟨v, hvalue⟩ := hvalues t List.mem_cons_self hkind
    rw [List.singleton_append, atom, numberNode_eq hvalue]
    refine (if_pos (beq_iff_eq.mpr hkind)).trans ?_
    simp only [current, List.headD_cons, hvalue, List.drop_succ_cons, List.drop_zero]
  | @name t hkind =>
    rw [List.singleton_append, atom]
    refine (if_neg (hnumber hkind)).trans ((if_pos (beq_iff_eq.mpr hkind)).trans ?_)
    exact if_neg (mt isThe_iff.mp hrest)
  | @emptyCall t opening close hkind hopening hclose =>
    rw [atom]
    refine (if_neg (hnumber hkind)).trans ((if_pos (beq_iff_eq.mpr hkind)).trans ?_)
    refine (if_pos (isThe_iff.mpr hopening)).trans ?_
    exact if_pos (isThe_iff.mpr hclose)
  | @call t opening ts ns stop hkind hopening harguments =>
    obtain ⟨first, us, rfl, hfirst⟩ := harguments.starts hp
    rw [List.forall_mem_cons, List.forall_mem_cons] at hvalues
    rw [atom]
    refine (if_neg (hnumber hkind)).trans ((if_pos (beq_iff_eq.mpr hkind)).trans ?_)
    refine (if_pos (isThe_iff.mpr hopening)).trans ?_
    refine (if_neg (mt isThe_iff.mp hfirst.not_is_close)).trans (bind_eq_ok.mpr ⟨(ns, stop, rest), ?_, rfl⟩)
    refine complete_arguments h hfollow harguments hvalues.2.2 ?_ rest
    exact ((first :: us).sublist_append_left rest).length_le
  | @group opening close ts n hopening hinner hclose =>
    rw [List.forall_mem_append, List.forall_mem_cons] at hvalues
    rw [List.append_assoc, List.cons_append, List.singleton_append, atom]
    refine (if_neg (mt eq_of_beq (hopening.kind_ne (by decide)))).trans
      ((if_neg (mt eq_of_beq (hopening.kind_ne (by decide)))).trans ((if_pos (isThe_iff.mpr hopening)).trans ?_))
    refine bind_eq_ok.mpr ⟨(n, close :: rest), ?_, if_pos (isThe_iff.mpr hclose)⟩
    exact h.complete hinner hvalues.1.2 (close :: rest) (hfollow close (.inl hclose))

theorem reads_atom (h : Reads r p follow) (hp : Proper p)
    (hfollow : ∀ t, Is t "PUNCTUATION" ")" ∨ Is t "PUNCTUATION" "," → follow t) : Reads (atom r) (Atom p) AfterAtom where
  sound := fun _ _ _ => sound_atom h
  complete := fun _ _ hatom hvalues rest hrest => complete_atom h hp hfollow hatom hvalues rest hrest

/-! ## Powers and negations -/

/-- Nothing follows that goes on with a negation or a power. -/
def AfterUnary (t : Token) : Prop := AfterAtom t ∧ ¬Is t "OPERATOR" "^"

theorem reads_power {inner unary : Reader} {content operand : Phrase} (hatom : Reads (atom inner) (Atom content) AfterAtom)
    (hunary : Reads unary operand AfterUnary) : Reads (power inner unary) (Power content operand) AfterUnary where
  sound := by
    intro tokens node rest h
    obtain ⟨⟨base, behind⟩, hread, hbehind⟩ := bind_eq_ok.mp h
    obtain ⟨ts, rfl, hvalues, hbase⟩ := hatom.sound hread
    dsimp only at hbehind
    split at hbehind
    · next hnext =>
      obtain ⟨caret, us, rfl, hcaret⟩ := (isThe_iff.mp hnext).exists_cons (by decide)
      obtain ⟨⟨exponent, last⟩, hexponent, hlast⟩ := bind_eq_ok.mp hbehind
      cases pure_eq_ok.mp hlast
      obtain ⟨us', hus, hmore, hoperand⟩ := hunary.sound hexponent
      obtain rfl : us = us' ++ last := hus
      refine ⟨ts ++ caret :: us', (List.append_assoc ts (caret :: us') last).symm, ?_, .raised hbase hcaret hoperand⟩
      exact List.forall_mem_append.mpr ⟨hvalues, List.forall_mem_cons.mpr ⟨hcaret.hasValue (by decide), hmore⟩⟩
    · cases pure_eq_ok.mp hbehind
      exact ⟨ts, rfl, hvalues, .atom hbase⟩
  complete := by
    intro ts node h hvalues rest hrest
    cases h with
    | atom hbase =>
      refine bind_eq_ok.mpr ⟨(node, rest), hatom.complete hbase hvalues rest hrest.1, ?_⟩
      exact if_neg (mt isThe_iff.mp hrest.2)
    | @raised ts us caret base exponent hbase hcaret hexponent =>
      rw [List.forall_mem_append, List.forall_mem_cons] at hvalues
      rw [List.append_assoc, List.cons_append]
      refine bind_eq_ok.mpr ⟨(base, caret :: (us ++ rest)), ?_, (if_pos (isThe_iff.mpr hcaret)).trans ?_⟩
      · exact hatom.complete hbase hvalues.1 _ (hcaret.not (by decide) _)
      · exact bind_eq_ok.mpr ⟨(exponent, rest), hunary.complete hexponent hvalues.2.2 rest hrest, rfl⟩

/-! ## All phrases -/

/-- Nothing follows that goes on with an expression. -/
def AfterExpression (t : Token) : Prop :=
  (AfterUnary t ∧ ¬IsOperator ["*", "/"] t) ∧ ¬IsOperator ["+", "-"] t

theorem IsOperator.afterUnary {t : Token} (h : IsOperator operators t) (hcaret : "^" ∉ operators) : AfterUnary t :=
  ⟨fun hopen => absurd (h.1.symm.trans hopen.1) (by decide), fun hc => hcaret (hc.2 ▸ h.2)⟩

/-- Operators that are not in one list are none of another without common ones. -/
theorem IsOperator.not {t : Token} {others : List String} (h : IsOperator operators t)
    (hdisjoint : ∀ o ∈ operators, o ∉ others) : ¬IsOperator others t := fun h' => hdisjoint _ h.2 h'.2

theorem reads_expression {unary : Reader} {operand : Phrase} (h : Reads unary operand AfterUnary) :
    Reads (expression unary) (Expression operand) AfterExpression :=
  reads_chain (reads_chain h fun _ ht => ht.afterUnary (by decide)) fun _ ht =>
    ⟨ht.afterUnary (by decide), ht.not (by decide)⟩

/-- What is no operator and opens nothing may follow an expression. -/
theorem afterExpression_of_kind {t : Token} (hkind : t.kind ≠ "OPERATOR") (hopen : ¬Is t "PUNCTUATION" "(") :
    AfterExpression t :=
  ⟨⟨⟨hopen, fun ht => hkind ht.1⟩, fun ht => hkind ht.1⟩, fun ht => hkind ht.1⟩

/-- What closes or separates expressions may follow them. -/
theorem afterExpression_of_is {t : Token} (h : Is t "PUNCTUATION" ")" ∨ Is t "PUNCTUATION" ",") :
    AfterExpression t := by
  rcases h with h | h
  · exact afterExpression_of_kind (h.kind_ne (by decide)) (h.not (by decide) _)
  · exact afterExpression_of_kind (h.kind_ne (by decide)) (h.not (by decide) _)

theorem proper_chain (hp : Proper p) : Proper (Chain p operators) where
  starts := by
    intro ts node h
    induction h with
    | single hoperand => exact hp.starts hoperand
    | more _ _ _ ih =>
      obtain ⟨t, us, rfl, ht⟩ := ih
      exact ⟨t, _, List.cons_append, ht⟩
  inside := by
    intro ts node h
    induction h with
    | single hoperand => exact hp.inside hoperand
    | more _ hop hoperand ih =>
      exact List.forall_mem_append.mpr ⟨ih, List.forall_mem_cons.mpr ⟨hop.1 ▸ by decide, hp.inside hoperand⟩⟩

theorem Arguments.inside (hp : Proper p) {ts : List Token} {ns : List Node} {stop : Nat}
    (h : Arguments p ts ns stop) : ∀ t ∈ ts, t.kind ≠ "EOF" := by
  induction h with
  | last hargument hclose =>
    exact List.forall_mem_append.mpr
      ⟨hp.inside hargument, List.forall_mem_singleton.mpr (hclose.kind_ne (by decide))⟩
  | more hargument hcomma _ ih =>
    exact List.forall_mem_append.mpr
      ⟨hp.inside hargument, List.forall_mem_cons.mpr ⟨hcomma.kind_ne (by decide), ih⟩⟩

/-- An atom starts with no sign. -/
theorem Atom.starts {ts : List Token} {node : Node} (h : Atom p ts node) :
    ∃ t us, ts = t :: us ∧ Starts t ∧ ¬Is t "OPERATOR" "-" := by
  cases h with
  | number hkind => exact ⟨_, _, rfl, .inl hkind, fun ht => absurd (hkind.symm.trans ht.1) (by decide)⟩
  | name hkind | emptyCall hkind _ _ | call hkind _ _ =>
    exact ⟨_, _, rfl, .inr (.inl hkind), fun ht => absurd (hkind.symm.trans ht.1) (by decide)⟩
  | group hopening _ _ => exact ⟨_, _, rfl, .inr (.inr (.inl hopening)), hopening.not (by decide) _⟩

theorem Atom.inside (hp : Proper p) {ts : List Token} {node : Node} (h : Atom p ts node) :
    ∀ t ∈ ts, t.kind ≠ "EOF" := by
  cases h with
  | number hkind | name hkind => exact List.forall_mem_singleton.mpr (hkind ▸ by decide)
  | emptyCall hkind hopening hclose =>
    exact List.forall_mem_cons.mpr ⟨hkind ▸ by decide, List.forall_mem_cons.mpr
      ⟨hopening.kind_ne (by decide), List.forall_mem_singleton.mpr (hclose.kind_ne (by decide))⟩⟩
  | call hkind hopening harguments =>
    exact List.forall_mem_cons.mpr ⟨hkind ▸ by decide, List.forall_mem_cons.mpr
      ⟨hopening.kind_ne (by decide), harguments.inside hp⟩⟩
  | group hopening hinner hclose =>
    exact List.forall_mem_append.mpr ⟨List.forall_mem_cons.mpr ⟨hopening.kind_ne (by decide), hp.inside hinner⟩,
      List.forall_mem_singleton.mpr (hclose.kind_ne (by decide))⟩

theorem Power.starts {operand : Phrase} {ts : List Token} {node : Node} (h : Power p operand ts node) :
    ∃ t us, ts = t :: us ∧ Starts t ∧ ¬Is t "OPERATOR" "-" := by
  cases h with
  | atom hatom => exact hatom.starts
  | raised hatom _ _ =>
    obtain ⟨t, us, rfl, ht⟩ := hatom.starts
    exact ⟨t, _, List.cons_append, ht⟩

theorem proper_signed {operand content exponent : Phrase} (hoperand : Proper operand) (hcontent : Proper content)
    (hexponent : Proper exponent) : Proper (Signed operand content exponent) where
  starts := by
    intro ts node h
    cases h with
    | negation hminus _ => exact ⟨_, _, rfl, .inr (.inr (.inr hminus))⟩
    | power hpower =>
      obtain ⟨t, us, hts, ht, -⟩ := hpower.starts
      exact ⟨t, us, hts, ht⟩
  inside := by
    intro ts node h
    cases h with
    | negation hminus h => exact List.forall_mem_cons.mpr ⟨hminus.kind_ne (by decide), hoperand.inside h⟩
    | power hpower =>
      cases hpower with
      | atom hatom => exact hatom.inside hcontent
      | raised hatom hcaret h =>
        exact List.forall_mem_append.mpr
          ⟨hatom.inside hcontent, List.forall_mem_cons.mpr ⟨hcaret.kind_ne (by decide), hexponent.inside h⟩⟩

theorem proper_nothing : Proper Nothing := ⟨fun _ _ h => h.elim, fun _ _ h => h.elim⟩

theorem proper_unary (frames : Nat) : Proper (Unary frames) :=
  unary_induction proper_nothing (fun h => proper_chain (proper_chain h)) proper_signed frames

theorem proper_sentence (frames : Nat) : Proper (Sentence frames) :=
  proper_chain (proper_chain (proper_unary frames))

theorem reads_nothing {follow : Token → Prop} : Reads outOfFrames Nothing follow :=
  ⟨fun _ _ _ h => (nomatch h), fun _ _ h => h.elim⟩

/-- What stands in parentheses is read, if all that nests less deep is. -/
theorem reads_content : ∀ {frames : Nat}, (∀ f ≤ frames, Reads (unary f) (Unary f) AfterUnary) →
    Reads (contentReader frames) (ContentPhrase frames) AfterExpression
  | 0, _ | 1, _ | 2, _ | 3, _ => reads_nothing
  | frames + 4, h => reads_expression (h frames (Nat.le_add_right frames 4))

theorem reads_exponent {frames : Nat} (h : ∀ f ≤ frames, Reads (unary f) (Unary f) AfterUnary) :
    Reads (exponentReader frames) (ExponentPhrase frames) AfterUnary := by
  cases frames with
  | zero => exact reads_nothing
  | succ frames => exact h frames (Nat.le_succ frames)

/-- **Negations and powers are read**, however deep they nest. -/
theorem reads_unary (frames : Nat) : Reads (unary frames) (Unary frames) AfterUnary := by
  induction frames using Nat.strongRecOn with
  | ind frames ih =>
    cases frames with
    | zero => exact reads_nothing
    | succ frames =>
    have hless (f : Nat) (hf : f ≤ frames) := ih f (Nat.lt_succ_of_le hf)
    have hcontent : Proper (ContentPhrase frames) := content_cases frames proper_nothing fun f _ => proper_sentence f
    have hpower : Reads (power (contentReader frames) (exponentReader frames))
        (Power (ContentPhrase frames) (ExponentPhrase frames)) AfterUnary :=
      reads_power (reads_atom (reads_content hless) hcontent fun _ => afterExpression_of_is) (reads_exponent hless)
    have hoperand := hless frames (Nat.le_refl frames)
    rw [unary_eq_signed]
    constructor
    · intro tokens node rest hunary
      rw [unary_succ] at hunary
      split at hunary
      · next hnext =>
        obtain ⟨minus, us, rfl, hminus⟩ := (isThe_iff.mp hnext).exists_cons (by decide)
        obtain ⟨⟨n, last⟩, hn, hlast⟩ := bind_eq_ok.mp hunary
        cases pure_eq_ok.mp hlast
        obtain ⟨ts, hts, hvalues, hnode⟩ := hoperand.sound hn
        obtain rfl : us = ts ++ rest := hts
        exact ⟨minus :: ts, rfl, List.forall_mem_cons.mpr ⟨hminus.hasValue (by decide), hvalues⟩,
          .negation hminus hnode⟩
      · obtain ⟨ts, hts, hvalues, hnode⟩ := hpower.sound hunary
        exact ⟨ts, hts, hvalues, .power hnode⟩
    · intro ts node hsigned hvalues rest hrest
      rw [unary_succ]
      cases hsigned with
      | @negation minus ts n hminus hnode =>
        refine (if_pos (isThe_iff.mpr hminus)).trans (bind_eq_ok.mpr ⟨(n, rest), ?_, rfl⟩)
        exact hoperand.complete hnode (List.forall_mem_cons.mp hvalues).2 rest hrest
      | power hnode =>
        obtain ⟨t, us, rfl, -, hsign⟩ := hnode.starts
        exact (if_neg (mt isThe_iff.mp hsign)).trans (hpower.complete hnode hvalues rest hrest)

/-- **Expressions are read**, however deep they nest. -/
theorem reads_sentence (frames : Nat) : Reads (expression (unary frames)) (Sentence frames) AfterExpression :=
  reads_expression (reads_unary frames)

/-- **A list of tokens is an expression of the grammar or none**: up to the end token, all of it is read. -/
theorem ofTokens_eq_ok [Interpreter] {ts : List Token} {close : Token} {root : Node}
    (hinside : ∀ t ∈ ts, t.kind ≠ "EOF")
    (hclose : close.kind = "EOF") :
    ofTokens (ts ++ [close]) = .ok root ↔ (∀ t ∈ ts, HasValue t) ∧ Sentence frameLimit ts root := by
  constructor
  · intro h
    obtain ⟨⟨node, rest⟩, hnode, h⟩ := bind_eq_ok.mp h
    obtain ⟨us, hus, hvalues, hsentence⟩ := (reads_sentence frameLimit).sound hnode
    dsimp only at h
    split at h
    · next hend =>
      obtain rfl := pure_eq_ok.mp h
      obtain rfl : us = ts := by
        rcases List.append_eq_append_iff.mp hus with ⟨front, rfl, hfront⟩ | ⟨back, rfl, hback⟩
        · cases front with
          | nil => exact List.append_nil ts
          | cons t front =>
            obtain rfl : close = t := (List.cons.inj hfront).1
            exact absurd hclose ((proper_sentence frameLimit).inside hsentence close (by simp))
        · cases back with
          | nil => exact (List.append_nil us).symm
          | cons t back =>
            rw [hback] at hend
            exact absurd (eq_of_beq hend) (hinside t (by simp))
      exact ⟨hvalues, hsentence⟩
    · cases h
  · rintro ⟨hvalues, hsentence⟩
    have hfollow : AfterExpression close :=
      afterExpression_of_kind (hclose ▸ by decide) fun hopen => absurd (hopen.1.symm.trans hclose) (by decide)
    exact bind_eq_ok.mpr ⟨(root, [close]), (reads_sentence frameLimit).complete hsentence hvalues [close] hfollow,
      if_pos (beq_iff_eq.mpr hclose)⟩

end SlotEdit.Math
