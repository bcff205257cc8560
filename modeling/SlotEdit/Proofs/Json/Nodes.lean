import SlotEdit.Json.Tree
import SlotEdit.Proofs.Results
import SlotEdit.Proofs.Json.Reading

/-!
# Proofs/Json/Nodes — the syntax trees of phrases

`node` is the syntax tree of a phrase at some offset and `value` what it stands for.  `toNode_tree`
says when the node of a phrase is made: when its literals decode and it does not nest too deep.
-/

namespace SlotEdit.Json

/-- The form of a word. -/
def wordForm : String → JsonForm
  | "true" => .boolean true
  | "false" => .boolean false
  | _ => .null

/-- The value of a word. -/
def wordValue : String → Value
  | "true" => .bool true
  | "false" => .bool false
  | _ => .null

namespace Phrase

mutual
/-- **The syntax tree of a phrase** that stands at an offset. -/
def node : Phrase → Nat → Node
  | .word name, o => .mk (.json (wordForm name)) (span (.word name) o) []
  | .string body, o => .mk (.json (.string (textOf body))) (span (.string body) o) []
  | .number digits, o => .mk (.json (.number (numberOf digits))) (span (.number digits) o) []
  | .member key before after content, o =>
    .mk (.json .property) (span (.member key before after content) o)
      [.mk (.json (.string (textOf key))) (span (.string key) o) [],
        node content (valueStart key before after o)]
  | .group bracket items trail, o =>
    .mk (.json bracket.form) (span (.group bracket items trail) o) (nodes [] (o + 1) items)

/-- The syntax trees of items, the first item behind a separator. -/
def nodes (separator : List Char) (offset : Nat) : List (Item Phrase) → List Node
  | [] => []
  | ⟨gap, lead, p⟩ :: rest =>
    let start := offset + (gap ++ separator ++ lead).length
    node p start :: nodes [','] (start + p.render.length) rest
end

theorem nodes_eq (separator : List Char) (offset : Nat) (items : List (Item Phrase)) :
    nodes separator offset items = (spots separator offset items).map fun s => s.2.node s.1 := by
  induction items generalizing separator offset with
  | nil => rfl
  | cons i rest ih =>
    obtain ⟨gap, lead, p⟩ := i
    rw [nodes, spots, List.map_cons, ih]

theorem length_nodes (separator : List Char) (offset : Nat) (items : List (Item Phrase)) :
    (nodes separator offset items).length = items.length := by
  induction items generalizing separator offset with
  | nil => rfl
  | cons i rest ih =>
    obtain ⟨gap, lead, p⟩ := i
    rw [nodes, List.length_cons, ih, List.length_cons]

theorem nodes_append (separator : List Char) (offset : Nat) (xs ys : List (Item Phrase)) :
    nodes separator offset (xs ++ ys) = nodes separator offset xs
      ++ nodes (separatorAfter separator xs) (offset + (renderItems separator xs).length) ys := by
  rw [nodes_eq, nodes_eq, nodes_eq, spots_append, List.map_append]

theorem span_node (p : Phrase) (o : Nat) : (p.node o).span = p.span o := by
  cases p <;> rfl

mutual
/-- **What a phrase stands for**; a member stands for its value. -/
def value : Phrase → Value
  | .word name => wordValue name
  | .string body => .ofText (textOf body)
  | .number digits => numberOf digits
  | .member _ _ _ content => value content
  | .group .array items _ => .list ((fields items).map Prod.snd)
  | .group .object items _ => Value.dictOfEntries ((fields items).map fun f => (.ofText f.1, f.2))

/-- The keys and values of items. -/
def fields : List (Item Phrase) → List (LooseText × Value)
  | [] => []
  | ⟨_, _, p⟩ :: rest => (p.key, value p) :: fields rest
end

theorem fields_eq (items : List (Item Phrase)) :
    fields items = items.map fun i => (i.content.key, i.content.value) := by
  induction items with
  | nil => rfl
  | cons i rest ih =>
    obtain ⟨gap, lead, p⟩ := i
    rw [fields, List.map_cons, ih]

end Phrase

open Phrase

/-! ## Literals -/

/-- What starts with a quote decodes to a text. -/
theorem eq_of_decode_string [Interpreter] {body : List Char} {v : Value}
    (h : decode (String.ofList ('"' :: body)) = .ok v) : v = .ofText (textOf body) := by
  rw [decode, if_neg (by simp)] at h
  obtain ⟨⟨w, c⟩, hread, h⟩ := bind_eq_ok.mp h
  have hskip : (Cursor.ofText (String.ofList ('"' :: body))).skipWhile isSpace = ⟨0, '"' :: body⟩ := by
    rw [Cursor.ofText, String.toList_ofList]
    exact Cursor.skipWhile_append (a := []) 0 (by simp) (by simp [isSpace])
  rw [hskip, readValue.eq_def] at hread
  simp only [Cursor.peek?, List.head?_cons] at hread
  obtain ⟨⟨letters, c'⟩, hscan, hread⟩ := bind_eq_ok.mp hread
  change scanString 0 1 body = _ at hscan
  obtain rfl : Value.ofText ⟨letters⟩ = w := congrArg Prod.fst (Except.ok.inj hread)
  rw [textOf, hscan]
  simp only at h
  split at h
  · exact (Except.ok.inj h).symm
  · cases h

theorem textOf_of_decode [Interpreter] {body : List Char} {t : LooseText}
    (h : decode (String.ofList ('"' :: body)) = .ok (.ofText t)) : textOf body = t := by
  have htext := congrArg Value.text? (eq_of_decode_string h)
  rw [Value.text?_ofText, Value.text?_ofText] at htext
  exact (Option.some.inj htext).symm

theorem readValue_scalar {c : Char} (h : c ≠ '"' ∧ c ≠ '[' ∧ c ≠ '\x7b') (depth o : Nat) (s : List Char) :
    readValue depth ⟨o, c :: s⟩ = readScalar ⟨o, c :: s⟩ := by
  rw [readValue.eq_def]
  simp only [Cursor.peek?, List.head?_cons]
  split
  · next heq => exact absurd (Option.some.inj heq) h.1
  · next heq => exact absurd (Option.some.inj heq) h.2.1
  · next heq => exact absurd (Option.some.inj heq) h.2.2
  · rfl

/-- Nothing but a number starts with a minus or a digit. -/
theorem ne_of_numberStart {c : Char} (h : isAsciiDigit c = true ∨ c = '-') : c ≠ '"' ∧ c ≠ '[' ∧ c ≠ '\x7b' := by
  rcases h with h | rfl
  · refine ⟨?_, ?_, ?_⟩ <;>
      · rintro rfl
        cases h
  · decide

/-- A number of the grammar decodes to the scalar at its front. -/
theorem numberOf_of_decode [Interpreter] {digits : List Char} {v : Value} (hshaped : (Phrase.number digits).Shaped)
    (h : decode (String.ofList digits) = .ok v) : numberOf digits = v := by
  obtain ⟨c, s, hcons, hopen⟩ := Grammar.exists_opening hshaped
  obtain rfl : digits = c :: s := hcons
  have hstart : isAsciiDigit c = true ∨ c = '-' := by
    cases hshaped with
    | number hne hlen => exact (Grammar.isOpening_of_numberLength (by rw [hlen]; exact Nat.succ_ne_zero _)).symm
  have hmark : (String.ofList (c :: s)).toList.head? ≠ some '\ufeff' := by
    rw [String.toList_ofList]
    exact fun heq => Grammar.ne_of_isOpening hopen rfl (Option.some.inj heq)
  have hspace : isSpace c = false := by
    simp only [isSpace, Bool.or_eq_false_iff, beq_eq_false_iff_ne]
    exact ⟨⟨⟨Grammar.ne_of_isOpening hopen rfl, Grammar.ne_of_isOpening hopen rfl⟩,
      Grammar.ne_of_isOpening hopen rfl⟩, Grammar.ne_of_isOpening hopen rfl⟩
  rw [decode, if_neg hmark] at h
  obtain ⟨⟨w, after⟩, hread, h⟩ := bind_eq_ok.mp h
  have hskip : (Cursor.ofText (String.ofList (c :: s))).skipWhile isSpace = ⟨0, c :: s⟩ := by
    rw [Cursor.ofText, String.toList_ofList]
    exact Cursor.skipWhile_append (a := []) 0 (by simp) (by simpa using hspace)
  rw [hskip, readValue_scalar (ne_of_numberStart hstart)] at hread
  rw [numberOf, hread]
  simp only at h
  split at h
  · exact Except.ok.inj h
  · cases h

theorem of_span {text : List Char} {p : Phrase} {front back : List Char}
    (h : text = front ++ p.render ++ back) : (p.span front.length).of text = p.render := by
  rw [h, Span.of, Phrase.span, Nat.add_sub_cancel_left, List.append_assoc, List.drop_left,
    List.take_left]

/-- The text of a literal decodes. -/
theorem literalValue_eq_ok [Interpreter] {text front back : List Char} {p : Phrase} {kind : String} {v : Value}
    (h : text = front ++ p.render ++ back) :
    literalValue text kind (p.span front.length) = .ok v ↔ decode (String.ofList p.render) = .ok v := by
  rw [literalValue, of_span h]
  split
  · next heq =>
    rw [heq]
    exact ⟨fun h => congrArg Except.ok (Except.ok.inj h), fun h => congrArg Except.ok (Except.ok.inj h)⟩
  · next heq =>
    rw [heq]
    exact ⟨fun h => (nomatch h), fun h => (nomatch h)⟩

theorem stringNode_eq_ok [Interpreter] {text front body back : List Char} {n : Node}
    (h : text = front ++ '"' :: body ++ back) :
    stringNode text ((Phrase.string body).span front.length) = .ok n ↔
      (∃ v, decode (String.ofList ('"' :: body)) = .ok v) ∧
        n = (Phrase.string body).node front.length := by
  rw [stringNode, bind_eq_ok]
  simp only [literalValue_eq_ok (p := .string body) h]
  constructor
  · rintro ⟨v, hv, hn⟩
    refine ⟨⟨v, hv⟩, ?_⟩
    rw [eq_of_decode_string hv, Value.text?_ofText] at hn
    exact (Except.ok.inj hn).symm
  · rintro ⟨⟨v, hv⟩, rfl⟩
    refine ⟨v, hv, ?_⟩
    rw [eq_of_decode_string hv, Value.text?_ofText]
    rfl

/-! ## Nodes -/

/-- The maker of the nodes of members, or of values. -/
def toNode [Interpreter] (text : List Char) (frames : Nat) (members : Bool) : GrammarTree → Except TreeFault Node :=
  if members then propertyNode text (valueNode text frames) else valueNode text frames

theorem valueNode_group [Interpreter] (text : List Char) (frames : Nat) (bracket : Bracket) (s : Span)
    (ts : List GrammarTree) (h : ∀ t ∈ ts, t.isNamed = true) :
    valueNode text (frames + bracket.frames) (.named bracket.construct s ts) =
      (ts.mapM (toNode text frames bracket.holdsMembers)).map (.mk (.json bracket.form) s ·) := by
  have hnamed : (GrammarTree.named bracket.construct s ts).namedChildren = ts :=
    List.filter_eq_self.mpr h
  cases bracket <;>
    · rw [valueNode.eq_def]
      simp only [GrammarTree.construct, GrammarTree.named, Bracket.construct, Bracket.frames] at hnamed ⊢
      rw [hnamed]
      rfl

/-- Too few frames are left for a list. -/
theorem valueNode_group_of_lt [Interpreter] (text : List Char) {frames : Nat} (bracket : Bracket) (s : Span)
    (ts : List GrammarTree) (h : frames < bracket.frames) :
    valueNode text frames (.named bracket.construct s ts) = .error .tooDeep := by
  cases bracket with
  | array =>
    match frames, h with
    | 0, _ => rfl
    | 1, _ => rfl
  | object =>
    match frames, h with
    | 0, _ => rfl
    | 1, _ => rfl
    | 2, _ => rfl

theorem valueNode_withRole [Interpreter] (text : List Char) (frames : Nat) (role : String) (t : GrammarTree) :
    valueNode text frames (t.withRole role) = valueNode text frames t := by
  obtain ⟨construct, named, role', span, ts⟩ := t
  rw [valueNode.eq_def, valueNode.eq_def text frames (.node construct named role' span ts)]
  rfl

theorem propertyNode_pair [Interpreter] (text : List Char) (value : GrammarTree → Except TreeFault Node) (s : Span)
    {key : GrammarTree} (v : GrammarTree) (hkey : key.construct = "string") :
    propertyNode text value (.named "pair" s [key.withRole "key", v.withRole "value"]) =
      (stringNode text key.span >>= fun keyNode => value (v.withRole "value") >>= fun valueNode =>
        pure (.mk (.json .property) ⟨key.span.start, valueNode.span.stop⟩ [keyNode, valueNode])) := by
  obtain ⟨construct, named, role, span, ts⟩ := key
  obtain ⟨construct', named', role', span', ts'⟩ := v
  obtain rfl : construct = "string" := hkey
  rfl

theorem isNamed_trees {separator : List Char} {o : Nat} {items : List (Item Phrase)} :
    ∀ t ∈ trees separator o items, t.isNamed = true := by
  intro t ht
  rw [trees_eq] at ht
  obtain ⟨s, -, rfl⟩ := List.mem_map.mp ht
  exact isNamed_tree s.2 s.1

/-- The nodes of items are made one after another. -/
theorem mapM_trees [Interpreter] {text : List Char} {frames : Nat} {members : Bool} {items : List (Item Phrase)}
    (h : ∀ i ∈ items, ∀ front back n, text = front ++ i.content.render ++ back →
      (toNode text frames members (i.content.tree front.length) = .ok n ↔
        i.content.Readable ∧ i.content.frames ≤ frames ∧ n = i.content.node front.length))
    {separator front back : List Char} {ns : List Node}
    (htext : text = front ++ renderItems separator items ++ back) :
    (trees separator front.length items).mapM (toNode text frames members) = .ok ns ↔
      (∀ i ∈ items, i.content.Readable) ∧ framesOfItems items ≤ frames ∧
        ns = nodes separator front.length items := by
  induction items generalizing separator front ns with
  | nil =>
    rw [trees, mapM_nil_eq_ok, nodes]
    exact ⟨fun h => ⟨by simp, Nat.zero_le frames, h⟩, fun h => h.2.2⟩
  | cons i rest ih =>
    obtain ⟨gap, lead, p⟩ := i
    rw [List.forall_mem_cons] at h
    have hstart : front.length + (gap ++ separator ++ lead).length
        = (front ++ (gap ++ separator ++ lead)).length := List.length_append.symm
    have hnext : (front ++ (gap ++ separator ++ lead)).length + p.render.length
        = (front ++ (gap ++ separator ++ lead) ++ p.render).length := List.length_append.symm
    have hp : text = front ++ (gap ++ separator ++ lead) ++ p.render
        ++ (renderItems [','] rest ++ back) := by
      rw [htext, renderItems]
      simp only [List.append_assoc]
    have hrest : text = front ++ (gap ++ separator ++ lead) ++ p.render ++ renderItems [','] rest
        ++ back := by
      rw [htext, renderItems]
      simp only [List.append_assoc]
    rw [trees, mapM_cons_eq_ok, hstart, hnext, nodes, hstart, hnext, List.forall_mem_cons, framesOfItems,
      Nat.max_le]
    simp only [h.1 _ _ _ hp, ih h.2 hrest]
    constructor
    · rintro ⟨_, _, ⟨h₁, h₂, rfl⟩, ⟨h₃, h₄, rfl⟩, rfl⟩
      exact ⟨⟨h₁, h₃⟩, ⟨h₂, h₄⟩, rfl⟩
    · rintro ⟨⟨h₁, h₃⟩, ⟨h₂, h₄⟩, rfl⟩
      exact ⟨_, _, ⟨h₁, h₂, rfl⟩, ⟨h₃, h₄, rfl⟩, rfl⟩

/-- **The node of a phrase is made** just when its literals decode and it does not nest too deep. -/
theorem toNode_tree [Interpreter] {p : Phrase} (hp : p.Shaped) {text : List Char} {frames : Nat}
    {front back : List Char} {n : Node} (h : text = front ++ p.render ++ back) :
    toNode text frames p.isMember (p.tree front.length) = .ok n ↔
      p.Readable ∧ p.frames ≤ frames ∧ n = p.node front.length := by
  induction p generalizing frames front back n with
  | word name =>
    have hread : (Phrase.word name).Readable := fun s hs => nomatch hs
    have hframes : (Phrase.word name).frames ≤ frames := Nat.zero_le frames
    cases hp with
    | word hname =>
      simp only [List.mem_cons, List.not_mem_nil, or_false] at hname
      simp only [hread, hframes, true_and]
      rcases hname with rfl | rfl | rfl <;>
        · cases frames <;> exact ⟨fun h => (Except.ok.inj h).symm, fun h => h ▸ rfl⟩
  | string body =>
    have hframes : (Phrase.string body).frames ≤ frames := Nat.zero_le frames
    have hnode : toNode text frames false ((Phrase.string body).tree front.length)
        = stringNode text ((Phrase.string body).span front.length) := by cases frames <;> rfl
    simp only [Phrase.isMember, hnode, stringNode_eq_ok h, hframes, true_and, Readable, literals,
      List.forall_mem_singleton]
  | number digits =>
    have hframes : (Phrase.number digits).frames ≤ frames := Nat.zero_le frames
    have hnode : toNode text frames false ((Phrase.number digits).tree front.length) =
        (literalValue text "number" ((Phrase.number digits).span front.length) >>= fun v =>
          pure (.mk (.json (.number v)) ((Phrase.number digits).span front.length) [])) := by
      cases frames <;> rfl
    simp only [Phrase.isMember, hnode, bind_eq_ok, pure_eq_ok, literalValue_eq_ok h, hframes, true_and,
      Readable, literals, List.forall_mem_singleton, Phrase.render]
    constructor
    · rintro ⟨v, hv, rfl⟩
      exact ⟨⟨v, hv⟩, by rw [Phrase.node, numberOf_of_decode hp hv]⟩
    · rintro ⟨⟨v, hv⟩, rfl⟩
      exact ⟨v, hv, by rw [Phrase.node, numberOf_of_decode hp hv]⟩
  | member key before after content ih =>
    cases hp with
    | member _ _ _ hkind hshaped =>
      have hkey : text = front ++ '"' :: key ++ (before ++ ':' :: after ++ content.render ++ back) := by
        rw [h, render]
        simp only [List.append_assoc, List.cons_append]
      have hvalue : text = front ++ ('"' :: key ++ before ++ ':' :: after) ++ content.render ++ back := by
        rw [h, render]
        simp only [List.append_assoc, List.cons_append]
      have hstart : valueStart key before after front.length
          = (front ++ ('"' :: key ++ before ++ ':' :: after)).length := List.length_append.symm
      have hspan : (⟨front.length, ((content.node (valueStart key before after front.length)).span).stop⟩
          : Span) = (Phrase.member key before after content).span front.length := by
        simp only [span_node, Phrase.span, valueStart, render, List.length_append, Nat.add_assoc]
      have hnode : toNode text frames true ((Phrase.member key before after content).tree front.length)
          = _ := propertyNode_pair _ _ _ _ rfl
      have hcontent := fun n => @ih hshaped frames _ _ n hvalue
      rw [hkind] at hcontent
      rw [readable_member, Phrase.frames, Phrase.node, ← hspan, hstart]
      simp only [isMember, hnode, bind_eq_ok, pure_eq_ok, valueNode_withRole, hstart]
      constructor
      · rintro ⟨keyNode, hk, valueNode, hv, rfl⟩
        obtain ⟨hkey', rfl⟩ := (stringNode_eq_ok hkey).mp hk
        obtain ⟨hr, hh, rfl⟩ := (hcontent _).mp hv
        exact ⟨⟨hkey', hr⟩, hh, rfl⟩
      · rintro ⟨⟨hk, hr⟩, hh, rfl⟩
        exact ⟨_, (stringNode_eq_ok hkey).mpr ⟨hk, rfl⟩, _, (hcontent _).mpr ⟨hr, hh, rfl⟩, rfl⟩
  | group bracket items trail ih =>
    cases hp with
    | group _ _ _ hkind hshaped =>
      rw [readable_group, Phrase.frames, Phrase.node]
      rcases Nat.lt_or_ge frames bracket.frames with hfew | henough
      · have hfault : toNode text frames false ((Phrase.group bracket items trail).tree front.length)
            = .error .tooDeep := valueNode_group_of_lt text bracket _ _ hfew
        simp only [isMember, hfault]
        exact ⟨fun h => (by cases h), fun h => absurd ((Nat.le_add_left _ _).trans h.2.1) (Nat.not_le.mpr hfew)⟩
      · obtain ⟨frames, rfl⟩ := Nat.exists_eq_add_of_le' henough
        have hitems : text = front ++ [bracket.opening] ++ renderItems [] items
            ++ (trail ++ [bracket.closing] ++ back) := by
          rw [h, render]
          simp only [List.append_assoc, List.cons_append, List.nil_append]
        have hstart : front.length + 1 = (front ++ [bracket.opening]).length := by
          rw [List.length_append, List.length_singleton]
        have hnodes := fun ns => @mapM_trees _ text frames _ _
          (fun i hi front back n h => hkind i hi ▸ ih i hi (hshaped i hi) h) _ _ _ ns hitems
        have hnode : toNode text (frames + bracket.frames) false ((Phrase.group bracket items trail).tree front.length)
            = _ := valueNode_group _ _ _ _ _ isNamed_trees
        simp only [isMember, hnode, map_eq_ok, hstart, hnodes, Nat.add_le_add_iff_right]
        constructor
        · rintro ⟨ns, ⟨hr, hh, rfl⟩, rfl⟩
          exact ⟨hr, hh, rfl⟩
        · rintro ⟨hr, hh, rfl⟩
          exact ⟨_, ⟨hr, hh, rfl⟩, rfl⟩

end SlotEdit.Json
