import SlotEdit.Proofs.Json.Nodes

/-!
# Proofs/Json/Decoding — the value of a phrase is decoded from its text

A list or an object whose items decode in place decodes to its `value` (`decodes_array`,
`decodes_object`).  Decoding knows fewer blanks than the grammar: only `Spaces` are passed over.
-/

namespace SlotEdit.Json

/-- The white space that decoding passes over. -/
def Spaces (s : List Char) : Prop := ∀ c ∈ s, isSpace c = true

theorem spaces_nil : Spaces [] := fun _ h => nomatch h

/-- A reader of values decodes a phrase, whatever follows that does not go on with a number. -/
def Decodes (reader : Reader Value) (p : Phrase) : Prop :=
  ∀ o s, Stops s → reader ⟨o, p.render ++ s⟩ = .ok (p.value, ⟨o + p.render.length, s⟩)

/-- A key decodes, whatever follows it. -/
def KeyDecodes (key : List Char) : Prop :=
  ∀ start o s, scanString start o (key ++ s) = .ok ((textOf key).letters, ⟨o + key.length, s⟩)

open Phrase
open Grammar (stops_renderItems stops_blank stops_closing stops_cons quiet_closing quiet_render quiet_cons)

theorem isAsciiBlank_of_isSpace {c : Char} (h : isSpace c = true) : isAsciiBlank c = true := by
  simp only [isSpace, Bool.or_eq_true, beq_iff_eq] at h
  rcases h with ((rfl | rfl) | rfl) | rfl <;> rfl

theorem Spaces.blank {s : List Char} (h : Spaces s) : Blank s :=
  fun c hc => isAsciiBlank_of_isSpace (h c hc)

theorem isSpace_of_quiet {s : List Char} (h : Quiet s) : ∀ c ∈ s.head?, isSpace c = false := by
  intro c hc
  by_contra hspace
  have hblank := isAsciiBlank_of_isSpace (Bool.not_eq_false _ ▸ hspace)
  rw [(h c hc).1] at hblank
  cases hblank

theorem skipWhile_spaces {ws s : List Char} (o : Nat) (hws : Spaces ws) (hs : Quiet s) :
    (⟨o, ws ++ s⟩ : Cursor).skipWhile isSpace = ⟨o + ws.length, s⟩ :=
  Cursor.skipWhile_append o hws (isSpace_of_quiet hs)

variable {reader : Reader Value}

/-- The inside of a nonempty list, cut behind its first item. -/
theorem renderItems_first (lead : List Char) (p : Phrase) (rest : List (Item Phrase)) (s : List Char) :
    renderItems [] (⟨[], lead, p⟩ :: rest) ++ s = lead ++ (p.render ++ (renderItems [','] rest ++ s)) := by
  simp only [renderItems, List.append_assoc, List.nil_append]

/-- **The items of a list are decoded one after another.** -/
theorem readItems_render {items : List (Item Phrase)} {p : Phrase} {trail : List Char}
    (hp : Decodes reader p) (hitems : ∀ i ∈ items, Decodes reader i.content)
    (hshaped : ∀ i ∈ items, i.content.Shaped)
    (hblank : ∀ i ∈ items, Spaces i.gap ∧ Spaces i.lead) (htrail : Spaces trail) (turns o : Nat)
    (s : List Char) :
    readItems reader (turns + items.length + 1)
        ⟨o, p.render ++ (renderItems [','] items ++ (trail ++ ']' :: s))⟩ =
      .ok (p.value :: items.map fun i => i.content.value,
        ⟨o + (p.render ++ renderItems [','] items ++ trail).length + 1, s⟩) := by
  induction items generalizing p o with
  | nil =>
    have hread := hp o (trail ++ ']' :: s) (stops_blank htrail.blank (stops_closing .array s))
    have hskip : (⟨o + p.render.length, trail ++ ']' :: s⟩ : Cursor).skipWhile isSpace = _ :=
      skipWhile_spaces _ htrail (quiet_closing .array s)
    refine bind_eq_ok.mpr ⟨_, hread, ?_⟩
    simp only [renderItems, hskip, Cursor.peek?, List.head?_cons, Cursor.drop_one,
      List.append_nil, List.length_append, Nat.add_assoc]
    rfl
  | cons i rest ih =>
    obtain ⟨gap, lead, q⟩ := i
    rw [List.forall_mem_cons] at hitems hshaped hblank
    have htext : p.render ++ (renderItems [','] (⟨gap, lead, q⟩ :: rest) ++ (trail ++ ']' :: s))
        = p.render ++ (gap ++ ',' :: (lead ++ (q.render ++ (renderItems [','] rest ++
          (trail ++ ']' :: s))))) := by
      simp only [renderItems, List.append_assoc, List.cons_append, List.nil_append]
    have hstop : o + (p.render ++ renderItems [','] (⟨gap, lead, q⟩ :: rest) ++ trail).length + 1
        = o + p.render.length + gap.length + 1 + lead.length
          + (q.render ++ renderItems [','] rest ++ trail).length + 1 := by
      simp only [renderItems, List.length_append, List.length_cons, List.length_nil]
      omega
    have hread := hp o (gap ++ ',' :: (lead ++ (q.render ++ (renderItems [','] rest ++
      (trail ++ ']' :: s))))) (stops_blank hblank.1.1.blank (stops_cons _ (by decide)))
    have hcomma := skipWhile_spaces (o + p.render.length) hblank.1.1
      (quiet_cons (c := ',') (lead ++ (q.render ++ (renderItems [','] rest ++ (trail ++ ']' :: s))))
        (by decide))
    have hskip := skipWhile_spaces (o + p.render.length + gap.length + 1) hblank.1.2
      (quiet_render hshaped.1 (renderItems [','] rest ++ (trail ++ ']' :: s)))
    have hrest := ih hitems.1 hitems.2 hshaped.2 hblank.2
      (o + p.render.length + gap.length + 1 + lead.length)
    rw [htext, hstop]
    refine bind_eq_ok.mpr ⟨_, hread, ?_⟩
    simp only [hcomma, Cursor.peek?, List.head?_cons, Cursor.drop_one, hskip]
    exact bind_eq_ok.mpr ⟨_, hrest, rfl⟩

/-- A member decodes: its key and its value do, with white space around the colon. -/
def MemberDecodes (reader : Reader Value) : Phrase → Prop
  | .member key before after content =>
    KeyDecodes key ∧ Spaces before ∧ Spaces after ∧ content.Shaped ∧ Decodes reader content
  | _ => False

/-- The key and the value of a member. -/
def entry (p : Phrase) : Value × Value := (.ofText p.key, p.value)

/-- What `readMembers` does behind a member. -/
def afterMember (reader : Reader Value) (turns : Nat) (e : Value × Value) (c : Cursor) :
    Except Fault (List (Value × Value) × Cursor) :=
  let after := c.skipWhile isSpace
  match after.peek? with
  | some '\x7d' => pure ([e], after.drop 1)
  | some ',' => do
    let (es, last) ← readMembers reader turns ((after.drop 1).skipWhile isSpace)
    pure (e :: es, last)
  | _ => .error ⟨.expectingComma, after.offset⟩

theorem readMembers_member {p : Phrase} (hp : MemberDecodes reader p) (turns o : Nat) {s : List Char}
    (hs : Stops s) : readMembers reader (turns + 1) ⟨o, p.render ++ s⟩ =
      afterMember reader turns (entry p) ⟨o + p.render.length, s⟩ := by
  cases p with
  | member key before after content =>
    obtain ⟨hkey, hbefore, hafter, hshaped, hcontent⟩ := hp
    have htext : (Phrase.member key before after content).render ++ s
        = '"' :: (key ++ (before ++ ':' :: (after ++ (content.render ++ s)))) := by
      simp only [render, List.append_assoc, List.cons_append]
    have hstop : o + (Phrase.member key before after content).render.length
        = o + 1 + key.length + before.length + 1 + after.length + content.render.length := by
      simp only [render, List.length_append, List.length_cons]
      omega
    have hcolon := skipWhile_spaces (o + 1 + key.length) hbefore
      (quiet_cons (c := ':') (after ++ (content.render ++ s)) (by decide))
    have hskip := skipWhile_spaces (o + 1 + key.length + before.length + 1) hafter
      (quiet_render hshaped s)
    rw [htext, hstop, readMembers]
    simp only [List.drop_one, List.tail_cons, hkey o (o + 1), bind, Except.bind, hcolon, Cursor.peek?,
      List.head?_cons, if_true, Cursor.drop_one, hskip, hcontent _ s hs]
    rfl
  | _ => exact absurd hp id

/-- **The members of an object are decoded one after another.** -/
theorem readMembers_render {items : List (Item Phrase)} {p : Phrase} {trail : List Char}
    (hp : MemberDecodes reader p) (hitems : ∀ i ∈ items, MemberDecodes reader i.content)
    (hshaped : ∀ i ∈ items, i.content.Shaped)
    (hblank : ∀ i ∈ items, Spaces i.gap ∧ Spaces i.lead) (htrail : Spaces trail) (turns o : Nat)
    (s : List Char) :
    readMembers reader (turns + items.length + 1)
        ⟨o, p.render ++ (renderItems [','] items ++ (trail ++ '\x7d' :: s))⟩ =
      .ok (entry p :: items.map fun i => entry i.content,
        ⟨o + (p.render ++ renderItems [','] items ++ trail).length + 1, s⟩) := by
  induction items generalizing p o with
  | nil =>
    have hskip : (⟨o + p.render.length, trail ++ '\x7d' :: s⟩ : Cursor).skipWhile isSpace = _ :=
      skipWhile_spaces _ htrail (quiet_closing .object s)
    have hread := readMembers_member hp turns o (s := trail ++ '\x7d' :: s)
      (stops_blank htrail.blank (stops_closing .object s))
    rw [renderItems, List.nil_append, List.length_nil, Nat.add_zero, hread, afterMember]
    simp only [hskip, Cursor.peek?, List.head?_cons, Cursor.drop_one, List.append_nil,
      List.length_append, Nat.add_assoc]
    rfl
  | cons i rest ih =>
    obtain ⟨gap, lead, q⟩ := i
    rw [List.forall_mem_cons] at hitems hshaped hblank
    have htext : p.render ++ (renderItems [','] (⟨gap, lead, q⟩ :: rest) ++ (trail ++ '\x7d' :: s))
        = p.render ++ (gap ++ ',' :: (lead ++ (q.render ++ (renderItems [','] rest ++
          (trail ++ '\x7d' :: s))))) := by
      simp only [renderItems, List.append_assoc, List.cons_append, List.nil_append]
    have hstop : o + (p.render ++ renderItems [','] (⟨gap, lead, q⟩ :: rest) ++ trail).length + 1
        = o + p.render.length + gap.length + 1 + lead.length
          + (q.render ++ renderItems [','] rest ++ trail).length + 1 := by
      simp only [renderItems, List.length_append, List.length_cons, List.length_nil]
      omega
    have hcomma := skipWhile_spaces (o + p.render.length) hblank.1.1
      (quiet_cons (c := ',') (lead ++ (q.render ++ (renderItems [','] rest ++ (trail ++ '\x7d' :: s))))
        (by decide))
    have hskip := skipWhile_spaces (o + p.render.length + gap.length + 1) hblank.1.2
      (quiet_render hshaped.1 (renderItems [','] rest ++ (trail ++ '\x7d' :: s)))
    have hrest := ih hitems.1 hitems.2 hshaped.2 hblank.2
      (o + p.render.length + gap.length + 1 + lead.length)
    rw [htext, hstop, readMembers_member hp _ o (stops_blank hblank.1.1.blank (stops_cons _ (by decide))),
      afterMember]
    simp only [hcomma, Cursor.peek?, List.head?_cons, Cursor.drop_one, hskip]
    exact bind_eq_ok.mpr ⟨_, hrest, rfl⟩

/-! ## Lists and objects -/

/-- The turns of a list suffice for its items. -/
theorem exists_turns {p : Phrase} {rest : List (Item Phrase)}
    (hshaped : ∀ i ∈ rest, i.content.Shaped) (s : List Char) :
    ∃ turns, (p.render ++ (renderItems [','] rest ++ s)).length + 1 = turns + rest.length + 1 := by
  have hlen := Grammar.length_le_renderItems [','] fun i hi => Grammar.render_ne_nil (hshaped i hi)
  refine ⟨p.render.length + (renderItems [','] rest).length - rest.length + s.length, ?_⟩
  simp only [List.length_append]
  omega

theorem peek?_ne_closing {p : Phrase} (hp : p.Shaped) (bracket : Bracket) (o : Nat) (s : List Char) :
    (⟨o, p.render ++ s⟩ : Cursor).peek? ≠ some bracket.closing := by
  obtain ⟨c, t, hc, hopen⟩ := Grammar.exists_opening hp
  rw [Cursor.peek?, hc]
  exact fun h => Grammar.ne_of_isOpening hopen (by cases bracket <;> rfl) (Option.some.inj h)

/-- **A list whose items decode is decoded.** -/
theorem decodes_array {depth : Nat} {items : List (Item Phrase)} {trail : List Char}
    (h : (Phrase.group .array items trail).Shaped) (htrail : Spaces trail)
    (hblank : ∀ i ∈ items, Spaces i.gap ∧ Spaces i.lead)
    (hitems : ∀ i ∈ items, Decodes (readValue depth) i.content) :
    Decodes (readValue (depth + 1)) (.group .array items trail) := by
  intro o s _
  cases h with
  | group _ hfirst _ _ hshaped =>
    have hopen : readValue (depth + 1) ⟨o, '[' :: (renderItems [] items ++ (trail ++ ']' :: s))⟩ =
        readList (readValue depth) ⟨o + 1, renderItems [] items ++ (trail ++ ']' :: s)⟩ := by
      rw [readValue.eq_def]
      simp only [Cursor.peek?, List.head?_cons, Cursor.drop_one]
    have htext : (Phrase.group .array items trail).render ++ s
        = '[' :: (renderItems [] items ++ (trail ++ ']' :: s)) := by
      simp only [render, Bracket.opening, Bracket.closing, List.append_assoc, List.cons_append,
        List.nil_append]
    rw [htext, hopen, readList]
    cases items with
    | nil =>
      have hskip : (⟨o + 1, trail ++ ']' :: s⟩ : Cursor).skipWhile isSpace = _ :=
        skipWhile_spaces _ htrail (quiet_closing .array s)
      simp only [renderItems, List.nil_append, hskip, Cursor.peek?, List.head?_cons, Cursor.drop_one, if_true,
        Phrase.value, fields, render, List.map_nil, List.length_append, List.length_cons,
        List.length_nil]
      refine congrArg Except.ok (Prod.ext rfl (congrArg (Cursor.mk · s) ?_))
      omega
    | cons i rest =>
      obtain ⟨gap, lead, p⟩ := i
      obtain rfl : gap = [] := hfirst _ rfl
      rw [List.forall_mem_cons] at hshaped hblank hitems
      obtain ⟨turns, hturns⟩ := exists_turns (p := p) hshaped.2 (trail ++ ']' :: s)
      have hskip := skipWhile_spaces (o + 1) hblank.1.2
        (quiet_render hshaped.1 (renderItems [','] rest ++ (trail ++ ']' :: s)))
      have hpeek : (⟨o + 1 + lead.length, p.render ++ (renderItems [','] rest ++ (trail ++ ']' :: s))⟩ :
          Cursor).peek? ≠ some ']' := peek?_ne_closing hshaped.1 .array _ _
      have hread := readItems_render hitems.1 hitems.2 hshaped.2 hblank.2 htrail turns
        (o + 1 + lead.length) s
      simp only [renderItems_first, hskip, if_neg hpeek, hturns]
      refine bind_eq_ok.mpr ⟨_, hread, ?_⟩
      rw [Phrase.value, fields_eq, List.map_map, render]
      refine congrArg Except.ok (Prod.ext rfl (congrArg (Cursor.mk · s) ?_))
      simp only [renderItems, List.length_append, List.length_cons, List.length_nil]
      omega

/-- **An object whose members decode is decoded.** -/
theorem decodes_object {depth : Nat} {items : List (Item Phrase)} {trail : List Char}
    (h : (Phrase.group .object items trail).Shaped) (htrail : Spaces trail)
    (hblank : ∀ i ∈ items, Spaces i.gap ∧ Spaces i.lead)
    (hitems : ∀ i ∈ items, MemberDecodes (readValue depth) i.content) :
    Decodes (readValue (depth + 1)) (.group .object items trail) := by
  intro o s _
  cases h with
  | group _ hfirst _ _ hshaped =>
    have hopen : readValue (depth + 1) ⟨o, '\x7b' :: (renderItems [] items ++ (trail ++ '\x7d' :: s))⟩ =
        readObject (readValue depth) ⟨o + 1, renderItems [] items ++ (trail ++ '\x7d' :: s)⟩ := by
      rw [readValue.eq_def]
      simp only [Cursor.peek?, List.head?_cons, Cursor.drop_one]
    have htext : (Phrase.group .object items trail).render ++ s
        = '\x7b' :: (renderItems [] items ++ (trail ++ '\x7d' :: s)) := by
      simp only [render, Bracket.opening, Bracket.closing, List.append_assoc, List.cons_append,
        List.nil_append]
    rw [htext, hopen, readObject]
    cases items with
    | nil =>
      have hskip : (⟨o + 1, trail ++ '\x7d' :: s⟩ : Cursor).skipWhile isSpace = _ :=
        skipWhile_spaces _ htrail (quiet_closing .object s)
      simp only [renderItems, List.nil_append, hskip, Cursor.peek?, List.head?_cons, Cursor.drop_one, if_true,
        Phrase.value, fields, render, List.map_nil, List.length_append, List.length_cons,
        List.length_nil]
      refine congrArg Except.ok (Prod.ext rfl (congrArg (Cursor.mk · s) ?_))
      omega
    | cons i rest =>
      obtain ⟨gap, lead, p⟩ := i
      obtain rfl : gap = [] := hfirst _ rfl
      rw [List.forall_mem_cons] at hshaped hblank hitems
      obtain ⟨turns, hturns⟩ := exists_turns (p := p) hshaped.2 (trail ++ '\x7d' :: s)
      have hskip := skipWhile_spaces (o + 1) hblank.1.2
        (quiet_render hshaped.1 (renderItems [','] rest ++ (trail ++ '\x7d' :: s)))
      have hpeek : (⟨o + 1 + lead.length, p.render ++ (renderItems [','] rest ++ (trail ++ '\x7d' :: s))⟩ :
          Cursor).peek? ≠ some '\x7d' := peek?_ne_closing hshaped.1 .object _ _
      have hread := readMembers_render hitems.1 hitems.2 hshaped.2 hblank.2 htrail turns
        (o + 1 + lead.length) s
      simp only [renderItems_first, hskip, if_neg hpeek, hturns]
      refine bind_eq_ok.mpr ⟨_, hread, ?_⟩
      rw [Phrase.value, fields_eq, List.map_map, render]
      refine congrArg Except.ok (Prod.ext rfl (congrArg (Cursor.mk · s) ?_))
      simp only [renderItems, List.length_append, List.length_cons, List.length_nil]
      omega

/-! ## Words -/

/-- **A word of the grammar is decoded.** -/
theorem decodes_word {name : String} (h : name ∈ ["true", "false", "null"]) (depth : Nat) :
    Decodes (readValue depth) (.word name) := by
  intro o s _
  have haccept := Cursor.accept?_append o name s
  simp only [List.mem_cons, List.not_mem_nil, or_false] at h
  rw [render]
  rcases h with rfl | rfl | rfl
  · have hnull : (⟨o, "true".toList ++ s⟩ : Cursor).accept? "null" = none :=
      Cursor.accept?_eq_none (c := 't') rfl (by decide) o _
    refine (readValue_scalar (c := 't') (by decide) depth o _).trans ?_
    have hword : word? ⟨o, "true".toList ++ s⟩ = some (.bool true, ⟨o + "true".toList.length, s⟩) := by
      simp only [word?, words, List.findSome?_cons, hnull, haccept, Option.map_none, Option.map_some]
    exact (by rw [readScalar, hword] : readScalar ⟨o, "true".toList ++ s⟩ = _)
  · have hnull : (⟨o, "false".toList ++ s⟩ : Cursor).accept? "null" = none :=
      Cursor.accept?_eq_none (c := 'f') rfl (by decide) o _
    have htrue : (⟨o, "false".toList ++ s⟩ : Cursor).accept? "true" = none :=
      Cursor.accept?_eq_none (c := 'f') rfl (by decide) o _
    refine (readValue_scalar (c := 'f') (by decide) depth o _).trans ?_
    have hword : word? ⟨o, "false".toList ++ s⟩ = some (.bool false, ⟨o + "false".toList.length, s⟩) := by
      simp only [word?, words, List.findSome?_cons, hnull, htrue, haccept, Option.map_none,
        Option.map_some]
    exact (by rw [readScalar, hword] : readScalar ⟨o, "false".toList ++ s⟩ = _)
  · refine (readValue_scalar (c := 'n') (by decide) depth o _).trans ?_
    have hword : word? ⟨o, "null".toList ++ s⟩ = some (.null, ⟨o + "null".toList.length, s⟩) := by
      simp only [word?, words, List.findSome?_cons, haccept, Option.map_some]
    exact (by rw [readScalar, hword] : readScalar ⟨o, "null".toList ++ s⟩ = _)

/-! ## Whole texts -/

/-- A text that is read to its end is decoded. -/
theorem decode_of_readValue [Interpreter] {p : Phrase} {v : Value} {n : Nat} (hp : p.Shaped)
    (h : readValue nestingLimit ⟨0, p.render⟩ = .ok (v, ⟨n, []⟩)) :
    decode (String.ofList p.render) = .ok v := by
  obtain ⟨c, s, hc, hopen⟩ := Grammar.exists_opening hp
  have hmark : p.render.head? ≠ some '\ufeff' := by
    rw [hc]
    exact fun heq => Grammar.ne_of_isOpening hopen rfl (Option.some.inj heq)
  have hskip : (⟨0, p.render⟩ : Cursor).skipWhile isSpace = ⟨0, p.render⟩ := by
    have := skipWhile_spaces 0 spaces_nil (Grammar.quiet_render hp [])
    rwa [List.append_nil] at this
  rw [decode, Cursor.ofText, String.toList_ofList, if_neg hmark, hskip]
  exact bind_eq_ok.mpr ⟨_, h, rfl⟩

end SlotEdit.Json
