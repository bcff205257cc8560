import SlotEdit.Proofs.Math.Grammar
import SlotEdit.Proofs.Syntax.Paths

/-!
# Proofs/Math/Spelling — the same tokens elsewhere

A tree of the grammar does not depend on where its tokens stand (`portable_sentence`): the same
tokens elsewhere make up the same tree elsewhere.
-/

namespace SlotEdit

namespace Math

variable {p : Phrase} {operators : List String}

/-- What a token is without where it stands. -/
def spelling (t : Token) : String × String := (t.kind, t.value)

/-- **A phrase does not depend on where its tokens stand**: the same tokens elsewhere make up the same tree
elsewhere. -/
def Portable (p : Phrase) : Prop :=
  ∀ ⦃ts us n⦄, p ts n → us.map spelling = ts.map spelling → ∃ m, p us m ∧ m.unplaced = n.unplaced

theorem spelling_eq_iff {t u : Token} : spelling t = spelling u ↔ t.kind = u.kind ∧ t.value = u.value :=
  Prod.mk.injEq .. ▸ Iff.rfl

theorem Is.of_spelling {t u : Token} {kind value : String} (h : Is t kind value) (hu : spelling u = spelling t) :
    Is u kind value :=
  ⟨(spelling_eq_iff.mp hu).1.trans h.1, (spelling_eq_iff.mp hu).2.trans h.2⟩

theorem unplaced_operation {left right left' right' : Node} (hleft : left'.unplaced = left.unplaced)
    (hright : right'.unplaced = right.unplaced) (operator : String) :
    (operation left' operator right').unplaced = (operation left operator right).unplaced := by
  simp only [operation, Node.unplaced, Node.unplacedAll, hleft, hright]

/-- Tokens spelled as two lists with a token between them are two lists with a token between them. -/
theorem exists_append_cons {ts us rest : List Token} {t : Token}
    (h : us.map spelling = (ts ++ t :: rest).map spelling) : ∃ front t' back, us = front ++ t' :: back ∧
      front.map spelling = ts.map spelling ∧ spelling t' = spelling t ∧ back.map spelling = rest.map spelling := by
  rw [List.map_append, List.map_cons] at h
  obtain ⟨front, behind, rfl, hfront, hbehind⟩ := List.map_eq_append_iff.mp h
  obtain ⟨t', back, rfl, ht', hback⟩ := List.map_eq_cons_iff.mp hbehind
  exact ⟨front, t', back, rfl, hfront, ht', hback⟩

theorem portable_chain (hp : Portable p) : Portable (Chain p operators) := by
  intro ts us n h hus
  induction h generalizing us with
  | single hoperand =>
    obtain ⟨m, hm, heq⟩ := hp hoperand hus
    exact ⟨m, .single hm, heq⟩
  | @more ts ts' op left right _ hop hoperand ih =>
    obtain ⟨front, op', back, rfl, hfront, hop', hback⟩ := exists_append_cons hus
    obtain ⟨left', hleft', hleft⟩ := ih hfront
    obtain ⟨right', hright', hright⟩ := hp hoperand hback
    obtain ⟨hkind, hvalue⟩ := spelling_eq_iff.mp hop'
    refine ⟨operation left' op'.value right', .more hleft' ⟨hkind.trans hop.1, hvalue ▸ hop.2⟩ hright', ?_⟩
    rw [hvalue]
    exact unplaced_operation hleft hright _

theorem portable_arguments (hp : Portable p) {ts us : List Token} {ns : List Node} {stop : Nat}
    (h : Arguments p ts ns stop) (hus : us.map spelling = ts.map spelling) :
    ∃ ms stop', Arguments p us ms stop' ∧ Node.unplacedAll ms = Node.unplacedAll ns := by
  induction h generalizing us with
  | last hargument hclose =>
    obtain ⟨front, close', back, rfl, hfront, hclose', hback⟩ := exists_append_cons hus
    obtain rfl := List.map_eq_nil_iff.mp hback
    obtain ⟨m, hm, heq⟩ := hp hargument hfront
    exact ⟨[m], _, .last hm (hclose.of_spelling hclose'), by rw [Node.unplacedAll, Node.unplacedAll, heq]; rfl⟩
  | more hargument hcomma _ ih =>
    obtain ⟨front, comma', back, rfl, hfront, hcomma', hback⟩ := exists_append_cons hus
    obtain ⟨m, hm, heq⟩ := hp hargument hfront
    obtain ⟨ms, stop', hms, hall⟩ := ih hback
    exact ⟨m :: ms, stop', .more hm (hcomma.of_spelling hcomma') hms, by
      rw [Node.unplacedAll, Node.unplacedAll, heq, hall]⟩

theorem unplaced_numberNode {t u : Token} (h : spelling u = spelling t) :
    (numberNode u).unplaced = (numberNode t).unplaced := by
  simp only [numberNode, valueOf, Node.unplaced, (spelling_eq_iff.mp h).2]

theorem unplaced_variableNode {t u : Token} (h : spelling u = spelling t) :
    (variableNode u).unplaced = (variableNode t).unplaced := by
  simp only [variableNode, Node.unplaced, (spelling_eq_iff.mp h).2]

theorem unplaced_callNode {t u : Token} (h : spelling u = spelling t) {ns ms : List Node} {stop stop' : Nat}
    (hns : Node.unplacedAll ms = Node.unplacedAll ns) :
    (callNode u ms stop').unplaced = (callNode t ns stop).unplaced := by
  simp only [callNode, Node.unplaced, Node.unplacedAll, unplaced_variableNode h, hns]

theorem portable_atom (hp : Portable p) : Portable (Atom p) := by
  intro ts us n h hus
  cases h with
  | number hkind =>
    obtain ⟨t', rfl, ht'⟩ := List.map_eq_singleton_iff.mp hus
    exact ⟨numberNode t', .number ((spelling_eq_iff.mp ht').1.trans hkind), unplaced_numberNode ht'⟩
  | name hkind =>
    obtain ⟨t', rfl, ht'⟩ := List.map_eq_singleton_iff.mp hus
    exact ⟨variableNode t', .name ((spelling_eq_iff.mp ht').1.trans hkind), unplaced_variableNode ht'⟩
  | emptyCall hkind hopening hclose =>
    obtain ⟨t', behind, rfl, ht', hbehind⟩ := List.map_eq_cons_iff.mp hus
    obtain ⟨opening', last, rfl, hopening', hlast⟩ := List.map_eq_cons_iff.mp hbehind
    obtain ⟨close', rfl, hclose'⟩ := List.map_eq_singleton_iff.mp hlast
    exact ⟨callNode t' [] close'.stop, .emptyCall ((spelling_eq_iff.mp ht').1.trans hkind)
      (hopening.of_spelling hopening') (hclose.of_spelling hclose'), unplaced_callNode ht' rfl⟩
  | call hkind hopening harguments =>
    obtain ⟨t', behind, rfl, ht', hbehind⟩ := List.map_eq_cons_iff.mp hus
    obtain ⟨opening', last, rfl, hopening', hlast⟩ := List.map_eq_cons_iff.mp hbehind
    obtain ⟨ms, stop', hms, hall⟩ := portable_arguments hp harguments hlast
    exact ⟨callNode t' ms stop', .call ((spelling_eq_iff.mp ht').1.trans hkind)
      (hopening.of_spelling hopening') hms, unplaced_callNode ht' hall⟩
  | group hopening hinner hclose =>
    rw [List.cons_append] at hus
    obtain ⟨opening', behind, rfl, hopening', hbehind⟩ := List.map_eq_cons_iff.mp hus
    obtain ⟨front, close', back, rfl, hfront, hclose', hback⟩ := exists_append_cons hbehind
    obtain rfl := List.map_eq_nil_iff.mp hback
    obtain ⟨m, hm, heq⟩ := hp hinner hfront
    exact ⟨_, .group (hopening.of_spelling hopening') hm (hclose.of_spelling hclose'), by
      simp only [Node.unplaced, Node.unplacedAll, heq]⟩

theorem portable_power {operand : Phrase} (hp : Portable p) (hoperand : Portable operand) :
    Portable (Power p operand) := by
  intro ts us n h hus
  cases h with
  | atom hatom =>
    obtain ⟨m, hm, heq⟩ := portable_atom hp hatom hus
    exact ⟨m, .atom hm, heq⟩
  | raised hatom hcaret hexponent =>
    obtain ⟨front, caret', back, rfl, hfront, hcaret', hback⟩ := exists_append_cons hus
    obtain ⟨base', hbase', hbase⟩ := portable_atom hp hatom hfront
    obtain ⟨exponent', hexponent', hexp⟩ := hoperand hexponent hback
    exact ⟨_, .raised hbase' (hcaret.of_spelling hcaret') hexponent', unplaced_operation hbase hexp _⟩

theorem portable_signed {operand content exponent : Phrase} (hoperand : Portable operand) (hcontent : Portable content)
    (hexponent : Portable exponent) : Portable (Signed operand content exponent) := by
  intro ts us n h hus
  cases h with
  | negation hminus h =>
    obtain ⟨minus', back, rfl, hminus', hback⟩ := List.map_eq_cons_iff.mp hus
    obtain ⟨m, hm, heq⟩ := hoperand h hback
    exact ⟨_, .negation (hminus.of_spelling hminus') hm, by simp only [Node.unplaced, Node.unplacedAll, heq]⟩
  | power hpower =>
    obtain ⟨m, hm, heq⟩ := portable_power hcontent hexponent hpower hus
    exact ⟨m, .power hm, heq⟩

theorem portable_unary (frames : Nat) : Portable (Unary frames) :=
  unary_induction (fun _ _ _ h => h.elim) (fun h => portable_chain (portable_chain h)) portable_signed frames

theorem portable_sentence (frames : Nat) : Portable (Sentence frames) :=
  portable_chain (portable_chain (portable_unary frames))

end Math

end SlotEdit
