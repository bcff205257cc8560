import SlotEdit.Proofs.Json.Decoding
import SlotEdit.Proofs.Json.Scalars

/-!
# Proofs/Json/Strings — the strings that decode

What decoding reads as a string is one of the grammar, and is read the same whatever follows it
(`Inside`, `exists_inside`); so a string decodes in its place as it does on its own.
-/

namespace SlotEdit.Json

/-- **The inside of a string**, with its closing quote, and what it stands for: it ends where the
grammar says, and is read so whatever follows it. -/
structure Inside (body : List Char) (cs : List Letter) : Prop where
  ends : Grammar.stringEnd? body = some body.length
  scans (start o : Nat) (s : List Char) : scanString start o (body ++ s) = .ok (cs, ⟨o + body.length, s⟩)

theorem hexFour?_append {t : List Char} {n : Nat} (h : hexFour? t = some n) (s : List Char) :
    hexFour? (t ++ s) = some n := by
  rw [hexFour?.eq_def] at h
  split at h
  · exact h
  · cases h

/-- What starts with four hexadecimal digits goes on behind them. -/
theorem exists_of_hexFour? {t : List Char} {n : Nat} (h : hexFour? t = some n) :
    ∃ a b c d e s, t = a :: b :: c :: d :: e :: s := by
  rw [hexFour?.eq_def] at h
  split at h
  · exact ⟨_, _, _, _, _, _, rfl⟩
  · cases h

/-- A hexadecimal digit is an ordinary character of a string. -/
theorem plain_of_hexValue? {c : Char} {n : Nat} (h : hexValue? c = some n) : c ≠ '"' ∧ c ≠ '\\' ∧ c ≠ '\n' := by
  have hnone : ['"', '\\', '\n'].all (fun d => (hexValue? d).isNone) = true := rfl
  have hne (d : Char) (hd : d ∈ ['"', '\\', '\n']) : c ≠ d := by
    rintro rfl
    have := List.all_eq_true.mp hnone c hd
    rw [h] at this
    cases this
  exact ⟨hne _ (by decide), hne _ (by decide), hne _ (by decide)⟩

theorem stringEnd?_plain {c : Char} (h : c ≠ '"' ∧ c ≠ '\\' ∧ c ≠ '\n') (s : List Char) :
    Grammar.stringEnd? (c :: s) = (Grammar.stringEnd? s).map (· + 1) := by
  rw [Grammar.stringEnd?_cons h.1 h.2.1, if_neg h.2.2]

/-- Four hexadecimal digits are ordinary characters of a string. -/
theorem stringEnd?_hexFour {a b c d : Char} {s : List Char} {n : Nat}
    (h : hexFour? (a :: b :: c :: d :: s) = some n) :
    Grammar.stringEnd? (a :: b :: c :: d :: s) = (Grammar.stringEnd? s).map (· + 4) := by
  cases s with
  | nil => cases h
  | cons e s =>
    simp only [hexFour?, Option.bind_eq_bind, Option.bind_eq_some_iff] at h
    obtain ⟨_, ha, _, hb, _, hc, _, hd, -⟩ := h
    rw [stringEnd?_plain (plain_of_hexValue? ha), stringEnd?_plain (plain_of_hexValue? hb),
      stringEnd?_plain (plain_of_hexValue? hc), stringEnd?_plain (plain_of_hexValue? hd)]
    simp only [Option.map_map]
    rfl

theorem stringEnd?_letter {e : Char} (he : e ∈ Grammar.escapeLetters) (s : List Char) :
    Grammar.stringEnd? ('\\' :: e :: s) = (Grammar.stringEnd? s).map (· + 2) := by
  rw [Grammar.stringEnd?, if_pos he]

theorem mem_escapeLetters {e c : Char} (h : simpleEscape? e = some c) : e ∈ Grammar.escapeLetters := by
  rw [simpleEscape?.eq_def] at h
  split at h <;> first | decide | cases h

namespace Inside

variable {body : List Char} {cs : List Letter}

theorem close : Inside ['"'] [] where
  ends := rfl
  scans start o s := by rw [List.singleton_append, scanString, List.length_singleton]

theorem plain {c : Char} (hquote : c ≠ '"') (hslash : c ≠ '\\') (hcontrol : ¬ c.toNat < 32)
    (h : Inside body cs) : Inside (c :: body) (.char c :: cs) where
  ends := by
    have hfeed : c ≠ '\n' := by
      rintro rfl
      exact hcontrol (by decide)
    rw [stringEnd?_plain ⟨hquote, hslash, hfeed⟩, h.ends]
    rfl
  scans start o s := by
    rw [List.cons_append, scanString, if_neg hcontrol, h.scans]
    · simp only [bind, Except.bind, pure, Except.pure, List.length_cons, Nat.add_assoc, Nat.add_comm 1]
    · exact hquote
    · exact fun heq _ => hslash heq
    · exact fun _ heq _ => hslash heq
    · exact fun _ _ heq _ => hslash heq

theorem letter {e c : Char} (he : simpleEscape? e = some c) (h : Inside body cs) :
    Inside ('\\' :: e :: body) (.char c :: cs) where
  ends := by
    rw [stringEnd?_letter (mem_escapeLetters he), h.ends]
    rfl
  scans start o s := by
    have hu : e ≠ 'u' := by
      rintro rfl
      cases he
    rw [List.cons_append, List.cons_append, scanString]
    · simp only [he, h.scans, bind, Except.bind, pure, Except.pure, List.length_cons]
      refine congrArg Except.ok (Prod.ext rfl (congrArg (Cursor.mk · s) ?_))
      omega
    · exact hu

/-- A string that starts with `\\u` goes on with four digits. -/
theorem exists_code {s : List Char} (h : Inside body cs) (htake : (body ++ s).take 2 = ['\\', 'u']) :
    ∃ t n, body = '\\' :: 'u' :: t ∧ hexFour? t = some n := by
  cases body with
  | nil => cases h.ends
  | cons x body =>
    cases body with
    | nil =>
      rw [List.singleton_append, List.take_succ_cons] at htake
      obtain rfl := (List.cons.inj htake).1
      cases h.ends
    | cons y t =>
      simp only [List.cons_append, List.take_succ_cons, List.take_zero, List.cons.injEq, and_true] at htake
      obtain ⟨rfl, rfl⟩ := htake
      have hscan := h.scans 0 0 []
      cases hcode : hexFour? t with
      | none =>
        rw [List.append_nil, scanString] at hscan
        simp only [hcode] at hscan
        cases hscan
      | some n => exact ⟨t, n, rfl, hcode⟩

/-- Four digits behind `\\u` stand for their code, unless that is the first half of a pair and the
second half follows. -/
theorem code {a b c d : Char} {n : Nat} (hcode : hexFour? (a :: b :: c :: d :: body) = some n)
    (hsingle : isHighSurrogate n = true → ∀ t low, body = '\\' :: 'u' :: t → hexFour? t = some low →
      isLowSurrogate low = false)
    (h : Inside body cs) : Inside ('\\' :: 'u' :: a :: b :: c :: d :: body) (letterOfCode n :: cs) where
  ends := by
    rw [stringEnd?_letter (by decide), stringEnd?_hexFour hcode, h.ends]
    rfl
  scans start o s := by
    have hcode' : hexFour? (a :: b :: c :: d :: (body ++ s)) = some n := hexFour?_append hcode s
    have hread : scanString start (o + 6) (body ++ s) = .ok (cs, ⟨o + 6 + body.length, s⟩) := h.scans _ _ _
    have hpair : isHighSurrogate n = true → (body ++ s).take 2 = ['\\', 'u'] →
        ∃ low, hexFour? ((body ++ s).drop 2) = some low ∧ isLowSurrogate low = false := by
      intro hhigh htake
      obtain ⟨t, low, rfl, hlow⟩ := h.exists_code htake
      exact ⟨low, hexFour?_append hlow s, hsingle hhigh t low rfl hlow⟩
    simp only [List.cons_append, scanString, hcode', List.drop_succ_cons, List.drop_zero, hread]
    split
    · next hhigh =>
      obtain ⟨low, hlow, hnot⟩ := hpair hhigh.1 hhigh.2.2
      simp only [hlow, hnot, Bool.false_eq_true, if_false]
      simp only [bind, Except.bind, pure, Except.pure, List.length_cons]
      refine congrArg Except.ok (Prod.ext rfl (congrArg (Cursor.mk · s) ?_))
      omega
    · simp only [bind, Except.bind, pure, Except.pure, List.length_cons]
      refine congrArg Except.ok (Prod.ext rfl (congrArg (Cursor.mk · s) ?_))
      omega

theorem pair {a b c d a' b' c' d' : Char} {high low : Nat}
    (hcode : hexFour? (a :: b :: c :: d :: '\\' :: 'u' :: a' :: b' :: c' :: d' :: body) = some high)
    (hcode' : hexFour? (a' :: b' :: c' :: d' :: body) = some low) (hhigh : isHighSurrogate high = true)
    (hlow : isLowSurrogate low = true) (h : Inside body cs) :
    Inside ('\\' :: 'u' :: a :: b :: c :: d :: '\\' :: 'u' :: a' :: b' :: c' :: d' :: body)
      (.char (Char.ofNat (joinSurrogates high low)) :: cs) where
  ends := by
    rw [stringEnd?_letter (by decide), stringEnd?_hexFour hcode, stringEnd?_letter (by decide),
      stringEnd?_hexFour hcode', h.ends]
    rfl
  scans start o s := by
    have hread : scanString start (o + 12) (body ++ s) = .ok (cs, ⟨o + 12 + body.length, s⟩) := h.scans _ _ _
    have hhigh' := hexFour?_append hcode s
    have hlow' := hexFour?_append hcode' s
    have hne : body ≠ [] := by
      rintro rfl
      cases hcode'
    have hlen := List.length_pos_iff.mpr hne
    simp only [List.cons_append] at hhigh' hlow' ⊢
    simp only [scanString, hhigh', hlow', hhigh, hlow, List.drop_succ_cons, List.drop_zero, hread,
      List.take_succ_cons, List.take_zero, List.length_cons, List.length_append, and_true, true_and, if_true]
    rw [if_pos (by omega)]
    simp only [bind, Except.bind, pure, Except.pure]
    refine congrArg Except.ok (Prod.ext rfl (congrArg (Cursor.mk · s) ?_))
    omega

end Inside

theorem Inside.ne_nil {body : List Char} {cs : List Letter} (h : Inside body cs) : body ≠ [] := by
  rintro rfl
  cases h.ends

theorem hexFour?_of_append {a b c d : Char} {body s : List Char} {n : Nat} (hne : body ≠ [])
    (h : hexFour? (a :: b :: c :: d :: (body ++ s)) = some n) : hexFour? (a :: b :: c :: d :: body) = some n := by
  obtain ⟨e, body, rfl⟩ := List.exists_cons_of_ne_nil hne
  exact h

/-- **A string that is read is one whatever follows it.** -/
theorem exists_inside {start o : Nat} {s : List Char} {cs : List Letter} {c' : Cursor}
    (h : scanString start o s = .ok (cs, c')) :
    ∃ body, Inside body cs ∧ s = body ++ c'.rest := by
  fun_induction scanString start o s generalizing cs c' with
  | case1 => cases h
  | case2 o rest =>
    obtain ⟨rfl, rfl⟩ := Prod.mk.inj (Except.ok.inj h)
    exact ⟨_, .close, rfl⟩
  | case3 => cases h
  | case4 => cases h
  | case5 => cases h
  | case6 o rest high hhigh hpair low hlow hislow ih =>
    obtain ⟨⟨cs', after⟩, hread, heq⟩ := bind_eq_ok.mp h
    obtain ⟨rfl, rfl⟩ := Prod.mk.inj (Except.ok.inj heq)
    obtain ⟨body, hbody, hrest⟩ := ih hread
    obtain ⟨a, b, c, d, e, t, rfl⟩ := exists_of_hexFour? hhigh
    obtain ⟨a', b', c', d', e', t', htail⟩ := exists_of_hexFour? hlow
    cases t with
    | nil => cases htail
    | cons f t =>
      simp only [List.drop_succ_cons, List.drop_zero, List.take_succ_cons, List.take_zero, List.cons.injEq,
        and_true] at htail hpair hlow hrest
      obtain ⟨rfl, rfl⟩ := hpair.2.2
      subst htail
      simp only [List.drop_succ_cons, List.drop_zero] at hrest
      rw [hrest] at hhigh hlow ⊢
      exact ⟨_, hbody.pair (hexFour?_of_append (List.cons_ne_nil _ _) hhigh)
        (hexFour?_of_append hbody.ne_nil hlow) hpair.1 hislow, rfl⟩
  | case7 o rest high hhigh hpair low hlow hislow ih =>
    obtain ⟨⟨cs', after⟩, hread, heq⟩ := bind_eq_ok.mp h
    obtain ⟨rfl, rfl⟩ := Prod.mk.inj (Except.ok.inj heq)
    obtain ⟨body, hbody, hrest⟩ := ih hread
    obtain ⟨a, b, c, d, e, t, rfl⟩ := exists_of_hexFour? hhigh
    simp only [List.drop_succ_cons, List.drop_zero] at hrest hlow
    rw [hrest] at hhigh ⊢
    refine ⟨_, hbody.code (hexFour?_of_append hbody.ne_nil hhigh) ?_, rfl⟩
    -- What follows has been looked at, and is no second half.
    rintro - t' low' rfl hlow'
    obtain ⟨rfl, rfl⟩ := List.cons.inj hrest
    have hsame : hexFour? (t' ++ after.rest) = some low := hlow
    rw [hexFour?_append hlow'] at hsame
    exact Option.some.inj hsame ▸ Bool.eq_false_iff.mpr hislow
  | case8 o rest high hhigh hpair ih =>
    obtain ⟨⟨cs', after⟩, hread, heq⟩ := bind_eq_ok.mp h
    obtain ⟨rfl, rfl⟩ := Prod.mk.inj (Except.ok.inj heq)
    obtain ⟨body, hbody, hrest⟩ := ih hread
    obtain ⟨a, b, c, d, e, t, rfl⟩ := exists_of_hexFour? hhigh
    simp only [List.drop_succ_cons, List.drop_zero] at hrest hpair
    rw [hrest] at hhigh hpair ⊢
    refine ⟨_, hbody.code (hexFour?_of_append hbody.ne_nil hhigh) ?_, rfl⟩
    -- Were half a pair to follow, it would have been looked at.
    rintro hishigh t' low' rfl hlow'
    obtain ⟨_, _, _, _, _, _, rfl⟩ := exists_of_hexFour? hlow'
    refine absurd ⟨hishigh, ?_, rfl⟩ hpair
    simp only [List.cons_append, List.length_cons]
    omega
  | case9 => cases h
  | case10 o e rest hu c he ih =>
    obtain ⟨⟨cs', after⟩, hread, heq⟩ := bind_eq_ok.mp h
    obtain ⟨rfl, rfl⟩ := Prod.mk.inj (Except.ok.inj heq)
    obtain ⟨body, hbody, rfl⟩ := ih hread
    exact ⟨_, hbody.letter he, rfl⟩
  | case11 => cases h
  | case12 o c rest hquote _ _ hslash hcontrol ih =>
    obtain ⟨⟨cs', after⟩, hread, heq⟩ := bind_eq_ok.mp h
    obtain ⟨rfl, rfl⟩ := Prod.mk.inj (Except.ok.inj heq)
    obtain ⟨body, hbody, rfl⟩ := ih hread
    obtain ⟨e, t, rfl⟩ := List.exists_cons_of_ne_nil hbody.ne_nil
    exact ⟨_, hbody.plain hquote (fun heq => hslash e _ heq rfl) hcontrol, rfl⟩

namespace Inside

variable {body : List Char} {cs : List Letter}

theorem readValue_eq (h : Inside body cs) (depth o : Nat) (s : List Char) :
    readValue depth ⟨o, '"' :: body ++ s⟩ = .ok (.ofText ⟨cs⟩, ⟨o + ('"' :: body).length, s⟩) := by
  rw [readValue.eq_def]
  simp only [Cursor.peek?, List.cons_append, List.head?_cons, List.drop_one, List.tail_cons, h.scans, bind,
    Except.bind, List.length_cons]
  refine congrArg Except.ok (Prod.ext rfl (congrArg (Cursor.mk · s) ?_))
  omega

theorem decode_eq [Interpreter] (h : Inside body cs) : decode (String.ofList ('"' :: body)) = .ok (.ofText ⟨cs⟩) := by
  have hread := h.readValue_eq nestingLimit 0 []
  rw [List.append_nil] at hread
  exact decode_of_readValue (p := .string body) (.string h.ends) hread

theorem textOf_eq (h : Inside body cs) : textOf body = ⟨cs⟩ := textOf_of_decode h.decode_eq

/-- **A string decodes in its place** as it does on its own. -/
theorem decodes (h : Inside body cs) (depth : Nat) : Decodes (readValue depth) (.string body) := by
  intro o s _
  rw [Phrase.render, h.readValue_eq, Phrase.value, h.textOf_eq]

theorem keyDecodes (h : Inside body cs) : KeyDecodes body := by
  intro start o s
  rw [h.scans, h.textOf_eq]

end Inside

/-- A literal that decodes is read, up to white space behind it. -/
theorem exists_readValue_of_decode [Interpreter] {p : Phrase} {v : Value} (hp : p.Shaped)
    (h : decode (String.ofList p.render) = .ok v) :
    ∃ after, readValue nestingLimit ⟨0, p.render⟩ = .ok (v, after) ∧ Spaces after.rest := by
  have hskip : (Cursor.ofText (String.ofList p.render)).skipWhile isSpace = ⟨0, p.render⟩ := by
    rw [Cursor.ofText, String.toList_ofList]
    exact List.append_nil p.render ▸ skipWhile_spaces 0 spaces_nil (Grammar.quiet_render hp [])
  rw [decode, hskip] at h
  split at h
  · cases h
  · obtain ⟨⟨w, after⟩, hread, hend⟩ := bind_eq_ok.mp h
    dsimp only at hend
    split at hend
    · next hempty =>
      obtain rfl := Except.ok.inj hend
      refine ⟨after, hread, List.dropWhile_eq_nil_iff.mp ?_⟩
      exact List.isEmpty_iff.mp hempty
    · cases hend

/-- **A string of the grammar that decodes** is one whatever follows it. -/
theorem exists_inside_of_decode [Interpreter] {body : List Char} {v : Value}
    (hend : Grammar.stringEnd? body = some body.length)
    (h : decode (String.ofList ('"' :: body)) = .ok v) : ∃ cs, Inside body cs := by
  obtain ⟨_, hread, -⟩ := exists_readValue_of_decode (p := .string body) (.string hend) h
  rw [Phrase.render, readValue.eq_def] at hread
  simp only [Cursor.peek?, List.head?_cons, List.drop_one, List.tail_cons] at hread
  obtain ⟨⟨cs, after⟩, hscan, -⟩ := bind_eq_ok.mp hread
  obtain ⟨b, hb, hbody⟩ := exists_inside hscan
  have hlen : some b.length = some body.length := by
    rw [← hend, hbody, Grammar.stringEnd?_append hb.ends]
  rw [Option.some.injEq, hbody, List.length_append, Nat.left_eq_add, List.length_eq_zero_iff] at hlen
  rw [hlen, List.append_nil] at hbody
  exact ⟨cs, hbody ▸ hb⟩

end SlotEdit.Json
