import SlotEdit.Regex.Finder
import SlotEdit.Regex.InlineFlags

/-!
# Proofs/Regex/Spellings — the spellings of a pattern, and where they differ in what is read

A short spelling outside character sets and comments is no regular expression as it stands, so that its
long one cannot change what a valid expression means.  Inside them the characters are read for what they
are: a short group in a set adds a letter to the set, and a short reference in a comment adds a parenthesis
that ends it.  `harmless` says that an expression has neither; then the expression and its long spelling
differ only inside comments, or else from a place on that cannot be read (`alike_expandAliases`).

The scan for short spellings cuts a pattern into pieces (`aliasPieces`); spelling some of the short ones out gives the
patterns between the one that was written and its long spelling.  A long spelling starts like an escape or a group and
brings neither a backslash nor `(?<` in, so what is passed over in front of it, and what follows a short spelling that
stays, are read as before (`prefix_spelled`).  All these patterns have one long spelling, and so one meaning
(`expandAliases_confluent`).
-/

namespace SlotEdit.Regex

/-! ## The pieces of a text -/

/-- The characters and escapes of an expression. -/
def glyphs : List Char → List Glyph
  | [] => []
  | ['\\'] => [.loneBackslash]
  | '\\' :: c :: rest => .escaped c :: glyphs rest
  | c :: rest => .plain c :: glyphs rest

theorem map_glyph_piecesFrom (offset : Nat) (cs : List Char) : (piecesFrom offset cs).map Piece.glyph = glyphs cs := by
  fun_induction piecesFrom offset cs with
  | case1 => rfl
  | case2 => rfl
  | case3 offset c rest ih => exact congrArg (Glyph.escaped c :: ·) ih
  | case4 offset c rest h₁ h₂ ih =>
    rw [List.map_cons, ih, glyphs]
    · exact h₁
    · exact h₂

theorem glyphs_cons {c : Char} (h : c ≠ '\\') (cs : List Char) : glyphs (c :: cs) = .plain c :: glyphs cs := by
  rw [glyphs]
  · exact fun hc _ => h hc
  · exact fun _ _ hc => absurd hc h

theorem glyphs_append {cs : List Char} (h : ∀ c ∈ cs, c ≠ '\\') (rest : List Char) :
    glyphs (cs ++ rest) = cs.map .plain ++ glyphs rest := by
  induction cs with
  | nil => rfl
  | cons c cs ih =>
    rw [List.cons_append, glyphs_cons (h c List.mem_cons_self), ih fun d hd => h d (List.mem_cons_of_mem c hd)]
    rfl

/-! ## Places of an expression -/

/-- **What stands around a piece of an expression**: nothing that would change how it is read, a character
set that the next `free` pieces cannot close, a comment in parentheses that the next `free` pieces open, or a
comment up to the end of its line. -/
inductive Place
  | outside
  | set (free : Nat)
  | comment (free : Nat)
  | line
deriving DecidableEq, Repr

/-- Whether blanks and comments are passed over inside a group and behind it, given whether they are in
front of it and what follows its opening parenthesis. -/
def verboseFrom (verbose : Bool) : List Glyph → Bool × Bool
  | .plain '?' :: gs =>
    let on := verbose || (gs.takeWhile (Glyph.isPlain isFlagLetter)).contains (.plain 'x')
    match gs.dropWhile (Glyph.isPlain isFlagLetter) with
    | .plain ')' :: _ => (verbose, on)
    | .plain ':' :: _ => (on, verbose)
    | .plain '-' :: off => (on && !(off.takeWhile (Glyph.isPlain isFlagLetter)).contains (.plain 'x'), verbose)
    | _ => (verbose, verbose)
  | _ => (verbose, verbose)

namespace Place

/-- The place behind a piece, and for each open group from the inside out whether blanks and comments are
passed over there. -/
def next (p : Place) (groups : List Bool) (g : Glyph) (rest : List Glyph) : Place × List Bool :=
  match p, g with
  | .outside, .plain '[' => (.set (if rest.head? = some (.plain '^') then 2 else 1), groups)
  | .outside, .plain '(' =>
    if rest.take 2 = [.plain '?', .plain '#'] then (.comment 2, groups)
    else
      let (inside, behind) := verboseFrom (groups.headD false) rest
      (.outside, inside :: behind :: groups.tail)
  | .outside, .plain ')' => (.outside, groups.tail)
  | .outside, .plain '#' => (if groups.headD false then .line else .outside, groups)
  | .outside, _ => (.outside, groups)
  | .set 0, .plain ']' => (.outside, groups)
  | .set free, _ => (.set (free - 1), groups)
  | .comment 0, .plain ')' => (.outside, groups)
  | .comment free, _ => (.comment (free - 1), groups)
  | .line, .plain '\n' => (.outside, groups)
  | .line, _ => (.line, groups)

/-- A piece is passed over in a comment without ending it. -/
def passes (p : Place) (g : Glyph) : Bool :=
  match p with
  | .comment 0 => g != .plain ')' && g != .loneBackslash
  | .line => g != .plain '\n' && g != .loneBackslash
  | _ => false

end Place

/-! ## Short spellings -/

/-- A named group in its short spelling. -/
def startsShortGroup : List Glyph → Bool
  | .plain '(' :: .plain '?' :: .plain '<' :: gs => gs.head? != some (.plain '=') && gs.head? != some (.plain '!')
  | _ => false

/-- A reference to a named group in its short spelling. -/
def startsShortReference : List Glyph → Bool
  | .escaped 'k' :: .plain '<' :: gs =>
    !(gs.takeWhile (Glyph.isPlain isWord)).isEmpty && (gs.dropWhile (Glyph.isPlain isWord)).head? == some (.plain '>')
  | _ => false

/-- The long spelling would change the set or the comment that the pieces stand in. -/
def Place.spoilt (p : Place) (gs : List Glyph) : Bool :=
  match p with
  | .set _ => startsShortGroup gs
  | .comment _ => startsShortReference gs
  | _ => false

/-- **No short group stands in a character set and no short reference in a comment in parentheses.** -/
def harmless (p : Place) (groups : List Bool) : List Glyph → Bool
  | [] => true
  | g :: gs => !p.spoilt (g :: gs) && harmless (p.next groups g gs).1 (p.next groups g gs).2 gs

/-! ## Expressions that differ in their comments -/

/-- A short spelling where the pieces are read, which makes the expression invalid. -/
def Place.refuses (p : Place) (gs : List Glyph) : Prop :=
  (p = .outside ∧ startsShortGroup gs = true) ∨
    ((p = .outside ∨ ∃ free, p = .set free) ∧ gs.head? = some (.escaped 'k'))

/-- **Two expressions are read alike** from a place on: they have the same pieces except for what is passed
over in comments, perhaps up to a short spelling that makes the first one invalid. -/
inductive Alike : Place → List Bool → List Glyph → List Glyph → Prop
  | nil {p groups} : Alike p groups [] []
  | same {p groups g gs hs} (h : Alike (p.next groups g gs).1 (p.next groups g gs).2 gs hs) :
    Alike p groups (g :: gs) (g :: hs)
  | inserted {p groups g gs hs} (hg : p.passes g = true) (h : Alike p groups gs hs) : Alike p groups gs (g :: hs)
  | removed {p groups g gs hs} (hg : p.passes g = true) (hlone : hs.head? ≠ some .loneBackslash) (h : Alike p groups gs hs) :
    Alike p groups (g :: gs) hs
  | refused {p groups gs hs} (hp : p.refuses gs) (hh : hs.head? = some (.plain '(')) : Alike p groups gs hs

namespace Alike

variable {p : Place} {groups : List Bool} {gs hs : List Glyph}

theorem inserted_list {ins : List Glyph} (hins : ins.all p.passes = true) (h : Alike p groups gs hs) :
    Alike p groups gs (ins ++ hs) := by
  induction ins with
  | nil => exact h
  | cons g ins ih =>
    obtain ⟨hg, hins⟩ := Bool.and_eq_true_iff.mp hins
    exact .inserted hg (ih hins)

theorem removed_list {del : List Glyph} (hdel : del.all p.passes = true) (hlone : hs.head? ≠ some .loneBackslash)
    (h : Alike p groups gs hs) : Alike p groups (del ++ gs) hs := by
  induction del with
  | nil => exact h
  | cons g del ih =>
    obtain ⟨hg, hdel⟩ := Bool.and_eq_true_iff.mp hdel
    exact .removed hg hlone (ih hdel)

end Alike

namespace Place

theorem next_of_passes {p : Place} {g : Glyph} (h : p.passes g = true) (groups : List Bool) (rest : List Glyph) :
    p.next groups g rest = (p, groups) := by
  cases p with
  | outside => exact nomatch h
  | set free => exact nomatch h
  | comment free =>
    cases free with
    | zero =>
      have hg : g ≠ .plain ')' := fun hg => by rw [hg] at h; exact nomatch h
      rw [next]
      exact fun h _ => hg h
    | succ free => exact nomatch h
  | line =>
    have hg : g ≠ .plain '\n' := fun hg => by rw [hg] at h; exact nomatch h
    rw [next]
    exact hg

/-- **A comment opens with three pieces**, so that two at most are left of its opening. -/
def Near (p : Place) : Prop := ∀ free, p = .comment free → free ≤ 2

theorem Near.next {p : Place} (hp : p.Near) (groups : List Bool) (g : Glyph) (rest : List Glyph) :
    (p.next groups g rest).1.Near := by
  intro free h
  unfold Near at hp
  unfold Place.next at h
  split at h
  all_goals grind

end Place

/-! ## Harmless expressions -/

section

variable {p : Place} {groups : List Bool} {g : Glyph} {gs : List Glyph}

theorem harmless_cons : harmless p groups (g :: gs) = true ↔
    p.spoilt (g :: gs) = false ∧ harmless (p.next groups g gs).1 (p.next groups g gs).2 gs = true := by
  rw [harmless, Bool.and_eq_true, Bool.not_eq_true']

theorem harmless_of_append {del : List Glyph} (hdel : del.all p.passes = true) (h : harmless p groups (del ++ gs) = true) :
    harmless p groups gs = true := by
  induction del with
  | nil => exact h
  | cons g del ih =>
    obtain ⟨hg, hdel⟩ := Bool.and_eq_true_iff.mp hdel
    have h := (harmless_cons.mp h).2
    rw [Place.next_of_passes hg] at h
    exact ih hdel h

end

/-! ## Groups and references -/

theorem head?_glyphs {c : Char} (h : c ≠ '\\') (cs : List Char) : (glyphs cs).head? = some (.plain c) ↔ cs.head? = some c := by
  fun_cases glyphs cs with
  | case1 => exact iff_of_false (fun h => nomatch h) fun h => nomatch h
  | case2 => exact iff_of_false (fun h => nomatch h) fun hc => h (Option.some.inj hc).symm
  | case3 d rest => exact iff_of_false (fun h => nomatch h) fun hc => h (Option.some.inj hc).symm
  | case4 d rest => simp

theorem startsShortGroup_glyphs {rest : List Char} (h : ¬(rest.head? = some '=' ∨ rest.head? = some '!')) :
    startsShortGroup (glyphs ('(' :: '?' :: '<' :: rest)) = true := by
  have hahead : (glyphs rest).head? ≠ some (.plain '=') := fun hc => h (.inl ((head?_glyphs (by decide) rest).mp hc))
  have hnot : (glyphs rest).head? ≠ some (.plain '!') := fun hc => h (.inr ((head?_glyphs (by decide) rest).mp hc))
  exact Bool.and_eq_true_iff.mpr ⟨bne_iff_ne.mpr hahead, bne_iff_ne.mpr hnot⟩

theorem eq_of_bracketedName? {s name rest : List Char} (h : bracketedName? s = some (name, rest)) :
    s = name ++ '>' :: rest ∧ name ≠ [] ∧ ∀ c ∈ name, isWord c = true := by
  have hs := List.takeWhile_append_dropWhile (p := isWord) (l := s)
  unfold bracketedName? at h
  split at h
  · exact nomatch h
  · next hdrop hne =>
    obtain ⟨rfl, rfl⟩ := Prod.mk.inj (Option.some.inj h)
    rw [hdrop] at hs
    exact ⟨hs.symm, hne, List.all_eq_true.mp List.all_takeWhile⟩
  · exact nomatch h

/-- The pieces of a reference in its short spelling. -/
def shortReference (name : List Char) : List Glyph := [.escaped 'k', .plain '<'] ++ name.map .plain ++ [.plain '>']

/-- The pieces of a reference in its long spelling. -/
def longReference (name : List Char) : List Glyph :=
  [.plain '(', .plain '?', .plain 'P', .plain '='] ++ name.map .plain ++ [.plain ')']

section

variable {name : List Char} (hword : ∀ c ∈ name, isWord c = true)

include hword

theorem ne_of_isWord {c : Char} (hc : isWord c = false) : ∀ d ∈ name, d ≠ c :=
  fun d hd h => Bool.false_ne_true (hc.symm.trans (h ▸ hword d hd))

theorem glyphs_shortReference (rest : List Char) :
    glyphs ('\\' :: 'k' :: '<' :: (name ++ '>' :: rest)) = shortReference name ++ glyphs rest := by
  have h : glyphs (name ++ '>' :: rest) = name.map .plain ++ .plain '>' :: glyphs rest :=
    glyphs_append (ne_of_isWord hword (by decide)) _
  rw [shortReference, List.append_assoc, List.append_assoc]
  exact congrArg ([.escaped 'k', .plain '<'] ++ ·) h

theorem glyphs_longReference (rest : List Char) :
    glyphs (['(', '?', 'P', '='] ++ name ++ ')' :: rest) = longReference name ++ glyphs rest := by
  have h : glyphs (name ++ ')' :: rest) = name.map .plain ++ .plain ')' :: glyphs rest :=
    glyphs_append (ne_of_isWord hword (by decide)) _
  rw [longReference, List.append_assoc, List.append_assoc, List.append_assoc]
  exact congrArg ([.plain '(', .plain '?', .plain 'P', .plain '='] ++ ·) h

theorem startsShortReference_append (hne : name ≠ []) (gs : List Glyph) :
    startsShortReference (shortReference name ++ gs) = true := by
  have hname : ∀ g ∈ name.map Glyph.plain, g.isPlain isWord = true := List.forall_mem_map.mpr hword
  have hstop : ¬Glyph.isPlain isWord (.plain '>') = true := by decide
  rw [shortReference, List.append_assoc, List.append_assoc]
  change (!((name.map Glyph.plain ++ .plain '>' :: gs).takeWhile _).isEmpty
    && ((name.map Glyph.plain ++ .plain '>' :: gs).dropWhile _).head? == _) = true
  rw [List.takeWhile_append_of_pos hname, List.dropWhile_append_of_pos hname, List.takeWhile_cons_of_neg hstop,
    List.dropWhile_cons_of_neg hstop, List.append_nil]
  simp [hne]

/-- **A comment up to the end of its line** passes over a reference in either spelling. -/
theorem all_passes_reference : (shortReference name).all Place.line.passes = true ∧
    (longReference name).all Place.line.passes = true := by
  have hname : (name.map Glyph.plain).all Place.line.passes = true := by
    rw [List.all_map, List.all_eq_true]
    have hline : isWord '\n' = false := by decide
    exact fun c hc => by simp [Place.passes, ne_of_isWord hword hline c hc]
  constructor <;> simp only [shortReference, longReference, List.all_append, hname] <;> rfl

end

/-! ## The long spelling -/

/-- A piece that both expressions have. -/
theorem Alike.keep {p : Place} {groups : List Bool} {g : Glyph} {gs hs : List Glyph} (hp : p.Near)
    (h : harmless p groups (g :: gs) = true)
    (hbehind : ∀ (p : Place) (groups : List Bool), p.Near → harmless p groups gs = true → Alike p groups gs hs) :
    Alike p groups (g :: gs) (g :: hs) :=
  .same (hbehind _ _ (hp.next groups g gs) (harmless_cons.mp h).2)

/-- **A harmless expression and its long spelling are read alike.** -/
theorem alike_expandAliases (cs : List Char) (p : Place) (groups : List Bool) (hp : p.Near)
    (h : harmless p groups (glyphs cs) = true) : Alike p groups (glyphs cs) (glyphs (expandAliases cs)) := by
  fun_induction expandAliases cs generalizing p groups with
  | case1 => exact .nil
  | case2 => exact .same .nil
  | case3 inner name after hname _ ih =>
    obtain ⟨rfl, hne, hword⟩ := eq_of_bracketedName? hname
    rw [glyphs_shortReference hword] at h ⊢
    rw [glyphs_longReference hword]
    cases p with
    | outside => exact .refused (.inr ⟨.inl rfl, rfl⟩) rfl
    | set free => exact .refused (.inr ⟨.inr ⟨free, rfl⟩, rfl⟩) rfl
    | comment free => exact nomatch (startsShortReference_append hword hne _).symm.trans (harmless_cons.mp h).1
    | line =>
      obtain ⟨hshort, hlong⟩ := all_passes_reference hword
      exact .removed_list hshort (fun h => nomatch h) (.inserted_list hlong (ih _ _ hp (harmless_of_append hshort h)))
  | case4 inner _ ih => exact .keep hp h fun _ _ hp h => .keep hp h ih
  | case5 rest _ ih => exact .keep hp h ih
  | case6 c rest _ ih => exact .keep hp h ih
  | case7 rest _ ih => exact .keep hp h fun _ _ hp h => .keep hp h fun _ _ hp h => .keep hp h ih
  | case8 rest hgroup ih =>
    have hstarts := startsShortGroup_glyphs hgroup
    cases p with
    | outside => exact .refused (.inl ⟨rfl, hstarts⟩) rfl
    | set free => exact nomatch hstarts.symm.trans (harmless_cons.mp h).1
    | comment free =>
      have h := (harmless_cons.mp (harmless_cons.mp h).2).2
      match free, hp free rfl with
      | 0, _ | 1, _ | 2, _ => exact .same (.same (.inserted rfl (.keep (fun free hf => by cases hf; decide) h ih)))
    | line =>
      have h := (harmless_cons.mp (harmless_cons.mp h).2).2
      exact .same (.same (.inserted rfl (.keep hp h ih)))
  | case9 c rest hlone hescaped _ ih =>
    have hc : c ≠ '\\' := by
      rintro rfl
      cases rest with
      | nil => exact hlone rfl rfl
      | cons d rest => exact hescaped d rest rfl rfl
    rw [glyphs_cons hc] at h ⊢
    rw [glyphs_cons hc]
    exact .keep hp h ih

/-! ## The spellings of one pattern -/

/-- What the scan for short spellings tells apart: characters that it passes over, and the short spellings of a named
group and of a reference. -/
inductive AliasPiece
  | kept (cs : List Char)
  | group
  | reference (name : List Char)
deriving DecidableEq, Repr

namespace AliasPiece

/-- A piece as it is found. -/
def short : AliasPiece → List Char
  | kept cs => cs
  | group => ['(', '?', '<']
  | reference name => ['\\', 'k', '<'] ++ name ++ ['>']

/-- A piece spelled out. -/
def long : AliasPiece → List Char
  | kept cs => cs
  | group => ['(', '?', 'P', '<']
  | reference name => ['(', '?', 'P', '='] ++ name ++ [')']

end AliasPiece

/-- **The pieces of a pattern** from left to right.  An escaped character is one piece with its backslash; `(?<` opens a
named group unless a look-behind follows. -/
def aliasPieces (s : List Char) : List AliasPiece :=
  match s with
  | [] => []
  | ['\\'] => [.kept ['\\']]
  | '\\' :: c :: rest =>
    if c = 'k' then
      match rest with
      | '<' :: inner =>
        match h : bracketedName? inner with
        | some (name, after) =>
          have : after.length < inner.length := length_lt_of_bracketedName? h
          .reference name :: aliasPieces after
        | none => .kept ['\\', 'k', '<'] :: aliasPieces inner
      | rest => .kept ['\\', 'k'] :: aliasPieces rest
    else .kept ['\\', c] :: aliasPieces rest
  | '(' :: '?' :: '<' :: rest =>
    if rest.head? = some '=' ∨ rest.head? = some '!' then .kept ['(', '?', '<'] :: aliasPieces rest
    else .group :: aliasPieces rest
  | c :: rest => .kept [c] :: aliasPieces rest
termination_by s.length
decreasing_by all_goals simp only [List.length_cons]; omega

/-- Pieces with some of the short spellings spelled out: those whose number among the pieces is chosen. -/
def spelled (chosen : Nat → Bool) : List AliasPiece → List Char
  | [] => []
  | p :: rest => (if chosen 0 then p.long else p.short) ++ spelled (fun i => chosen (i + 1)) rest

/-- A pattern with some of its short spellings spelled out. -/
def spelledOut (chosen : Nat → Bool) (pattern : String) : String :=
  String.ofList (spelled chosen (aliasPieces pattern.toList))

example : spelledOut (· == 5) "(?<a>x)\\k<a>" = "(?<a>x)(?P=a)" := by cbv

/-! ## One step of the scan -/

section

variable {c : Char} {rest inner after name w : List Char}

theorem singleton_prefix_iff {s : List Char} : [c] <+: s ↔ s.head? = some c := by
  cases s with
  | nil => simp
  | cons d s => simp [eq_comm]

/-- Nothing starts at a character but an escape at a backslash and a group at a parenthesis. -/
theorem expandAliases_passed (hc : c ≠ '\\') (hgroup : c = '(' → ¬['?', '<'] <+: rest) :
    expandAliases (c :: rest) = c :: expandAliases rest := by
  rw [expandAliases]
  · exact fun h _ => hc h
  · exact fun _ _ h _ => hc h
  · rintro more rfl rfl
    exact hgroup rfl ⟨more, rfl⟩

/-- A character other than a backslash and a parenthesis, alone. -/
theorem forall_mem_one (h : c ≠ '\\' ∧ c ≠ '(') : ∀ d ∈ [c], d ≠ '\\' ∧ d ≠ '(' := List.forall_mem_singleton.mpr h

theorem expandAliases_append (hw : ∀ c ∈ w, c ≠ '\\' ∧ c ≠ '(') (rest : List Char) :
    expandAliases (w ++ rest) = w ++ expandAliases rest := by
  induction w with
  | nil => rfl
  | cons c w ih =>
    obtain ⟨hc, hw⟩ := List.forall_mem_cons.mp hw
    rw [List.cons_append, expandAliases_passed hc.1 fun h => absurd h hc.2, ih hw, List.cons_append]

theorem expandAliases_escaped (hc : c ≠ 'k') (rest : List Char) :
    expandAliases ('\\' :: c :: rest) = '\\' :: c :: expandAliases rest := by
  rw [expandAliases.eq_def]
  simp only [if_neg hc]

theorem expandAliases_escaped_k (h : ¬['<'] <+: rest) :
    expandAliases ('\\' :: 'k' :: rest) = '\\' :: 'k' :: expandAliases rest := by
  rw [expandAliases, if_pos rfl]
  rintro inner rfl
  exact h ⟨inner, rfl⟩

theorem expandAliases_reference (h : bracketedName? inner = some (name, after)) :
    expandAliases ('\\' :: 'k' :: '<' :: inner) = AliasPiece.long (.reference name) ++ expandAliases after := by
  rw [expandAliases, if_pos rfl]
  split
  · next name' after' h' =>
    obtain ⟨rfl, rfl⟩ := Prod.mk.inj (Option.some.inj (h.symm.trans h'))
    simp [AliasPiece.long]
  · next h' => cases h.symm.trans h'

theorem expandAliases_no_reference (h : bracketedName? inner = none) :
    expandAliases ('\\' :: 'k' :: '<' :: inner) = '\\' :: 'k' :: '<' :: expandAliases inner := by
  rw [expandAliases, if_pos rfl]
  split
  · next h' => cases h.symm.trans h'
  · rfl

theorem expandAliases_group (h : ¬(['='] <+: rest ∨ ['!'] <+: rest)) :
    expandAliases ('(' :: '?' :: '<' :: rest) = AliasPiece.long .group ++ expandAliases rest := by
  rw [singleton_prefix_iff, singleton_prefix_iff] at h
  rw [expandAliases, if_neg h]
  rfl

theorem expandAliases_lookBehind (h : ['='] <+: rest ∨ ['!'] <+: rest) :
    expandAliases ('(' :: '?' :: '<' :: rest) = '(' :: '?' :: '<' :: expandAliases rest := by
  rw [singleton_prefix_iff, singleton_prefix_iff] at h
  rw [expandAliases, if_pos h]

/-- A long spelling is passed over. -/
theorem expandAliases_long (hw : ∀ c ∈ w, c ≠ '\\' ∧ c ≠ '(') (rest : List Char) :
    expandAliases (['(', '?', 'P'] ++ w ++ rest) = ['(', '?', 'P'] ++ w ++ expandAliases rest := by
  have hplain : ∀ c ∈ ['?', 'P'] ++ w, c ≠ '\\' ∧ c ≠ '(' :=
    List.forall_mem_cons.mpr ⟨by decide, List.forall_mem_cons.mpr ⟨by decide, hw⟩⟩
  have hnot : ¬['?', '<'] <+: ['?', 'P'] ++ w ++ rest := fun h => by simp at h
  have hstep := expandAliases_passed (c := '(') (by decide) fun _ => hnot
  exact hstep.trans (congrArg ('(' :: ·) (expandAliases_append hplain rest))

theorem ne_of_reference (hword : ∀ c ∈ name, isWord c = true) (last : Char) (hlast : last ≠ '\\' ∧ last ≠ '(') :
    ∀ c ∈ name ++ [last], c ≠ '\\' ∧ c ≠ '(' :=
  List.forall_mem_append.mpr ⟨fun c hc => ⟨ne_of_isWord hword (by decide) c hc, ne_of_isWord hword (by decide) c hc⟩,
    List.forall_mem_singleton.mpr hlast⟩

end

/-! ## Spelling some of them out -/

section

variable {chosen : Nat → Bool} {p : AliasPiece} {s w : List Char}

theorem spelled_kept (cs : List Char) (ps : List AliasPiece) :
    spelled chosen (.kept cs :: ps) = cs ++ spelled (fun i => chosen (i + 1)) ps := by
  rw [spelled]
  exact congrArg (· ++ _) (ite_self cs)

/-- **Every piece in either spelling** starts with a backslash or a parenthesis, but for a character that is passed
over. -/
theorem not_prefix_spelled {ps : List AliasPiece} {c : Char} (hc : c ≠ '\\' ∧ c ≠ '(')
    (hshort : p.short.head? = some '\\' ∨ p.short.head? = some '(')
    (hlong : p.long.head? = some '\\' ∨ p.long.head? = some '(') : ¬c :: w <+: spelled chosen (p :: ps) := by
  rintro ⟨rest, h⟩
  have hhead : (if chosen 0 then p.long else p.short).head? = some '\\' ∨
      (if chosen 0 then p.long else p.short).head? = some '(' := by
    split
    · exact hlong
    · exact hshort
  rw [spelled] at h
  have hfirst {d : Char} (hd : (if chosen 0 then p.long else p.short).head? = some d) : c = d := by
    obtain ⟨cs, hcs⟩ := List.head?_eq_some_iff.mp hd
    rw [hcs] at h
    exact (List.cons.inj h).1
  exact hhead.elim (fun hd => hc.1 (hfirst hd)) fun hd => hc.2 (hfirst hd)

/-- **What starts a pattern** and holds no escape and no parenthesis is what starts each of its spellings. -/
theorem prefix_spelled (hw : ∀ c ∈ w, c ≠ '\\' ∧ c ≠ '(') :
    w <+: spelled chosen (aliasPieces s) ↔ w <+: s := by
  induction w generalizing chosen s with
  | nil => exact iff_of_true List.nil_prefix List.nil_prefix
  | cons c w ih =>
    obtain ⟨hc, hw⟩ := List.forall_mem_cons.mp hw
    have blocked {d : Char} {rest : List Char} (hd : d = '\\' ∨ d = '(') : ¬c :: w <+: d :: rest := fun h => by
      obtain ⟨rfl, -⟩ := List.cons_prefix_cons.mp h
      exact hd.elim hc.1 hc.2
    fun_cases aliasPieces s with
    | case1 => rfl
    | case2 => exact iff_of_false (not_prefix_spelled hc (.inl rfl) (.inl rfl)) (blocked (.inl rfl))
    | case3 => exact iff_of_false (not_prefix_spelled hc (.inl rfl) (.inr rfl)) (blocked (.inl rfl))
    | case4 => exact iff_of_false (not_prefix_spelled hc (.inl rfl) (.inl rfl)) (blocked (.inl rfl))
    | case5 => exact iff_of_false (not_prefix_spelled hc (.inl rfl) (.inl rfl)) (blocked (.inl rfl))
    | case6 => exact iff_of_false (not_prefix_spelled hc (.inl rfl) (.inl rfl)) (blocked (.inl rfl))
    | case7 => exact iff_of_false (not_prefix_spelled hc (.inr rfl) (.inr rfl)) (blocked (.inr rfl))
    | case8 => exact iff_of_false (not_prefix_spelled hc (.inr rfl) (.inr rfl)) (blocked (.inr rfl))
    | case9 d rest =>
      rw [spelled_kept, List.singleton_append, List.cons_prefix_cons, List.cons_prefix_cons, ih hw]

theorem bracketedName?_eq_some {name rest : List Char} :
    bracketedName? s = some (name, rest) ↔ s = name ++ '>' :: rest ∧ name ≠ [] ∧ ∀ c ∈ name, isWord c = true := by
  refine ⟨eq_of_bracketedName?, ?_⟩
  rintro ⟨rfl, hne, hword⟩
  have hstop : ¬isWord '>' = true := by decide
  rw [bracketedName?, List.takeWhile_append_of_pos hword, List.dropWhile_append_of_pos hword,
    List.takeWhile_cons_of_neg hstop, List.dropWhile_cons_of_neg hstop, List.append_nil]
  cases name with
  | nil => exact absurd rfl hne
  | cons c name => rfl

/-- **The long spelling of any spelling of some pieces** spells out all of them. -/
theorem expandAliases_spelled (s : List Char) (chosen : Nat → Bool) :
    expandAliases (spelled chosen (aliasPieces s)) = spelled (fun _ => true) (aliasPieces s) := by
  fun_induction aliasPieces s generalizing chosen with
  | case1 => rw [spelled, spelled, expandAliases]
  | case2 =>
    rw [spelled_kept, spelled_kept, spelled, spelled, List.append_nil, expandAliases]
  | case3 inner name after hname _ ih =>
    obtain ⟨rfl, hne, hword⟩ := eq_of_bracketedName? hname
    rw [spelled, spelled, if_pos rfl, ← ih fun i => chosen (i + 1)]
    split
    · have hplain : ∀ c ∈ '=' :: (name ++ [')']), c ≠ '\\' ∧ c ≠ '(' :=
        List.forall_mem_cons.mpr ⟨by decide, ne_of_reference hword ')' (by decide)⟩
      exact expandAliases_long hplain _
    · exact expandAliases_reference (bracketedName?_eq_some.mpr ⟨List.append_assoc name ['>'] _, hne, hword⟩)
  | case4 inner hname ih =>
    have hnone : bracketedName? (spelled (fun i => chosen (i + 1)) (aliasPieces inner)) = none := by
      refine Option.eq_none_iff_forall_ne_some.mpr ?_
      rintro ⟨name, after⟩ hsome
      obtain ⟨hspelled, hne, hword⟩ := bracketedName?_eq_some.mp hsome
      have hfront : name ++ ['>'] <+: spelled (fun i => chosen (i + 1)) (aliasPieces inner) :=
        ⟨after, by rw [hspelled, List.append_assoc, List.singleton_append]⟩
      obtain ⟨rest, hrest⟩ := (prefix_spelled (ne_of_reference hword '>' (by decide))).mp hfront
      have hname' := bracketedName?_eq_some.mpr ⟨hrest.symm.trans (List.append_assoc ..), hne, hword⟩
      cases hname.symm.trans hname'
    rw [spelled_kept, spelled_kept, ← ih fun i => chosen (i + 1)]
    exact expandAliases_no_reference hnone
  | case5 rest hrest ih =>
    have hangle : ¬['<'] <+: rest := by
      rintro ⟨inner, h⟩
      exact hrest inner h.symm
    rw [spelled_kept, spelled_kept, ← ih fun i => chosen (i + 1)]
    exact expandAliases_escaped_k (mt (prefix_spelled (forall_mem_one (by decide))).mp hangle)
  | case6 c rest hc ih =>
    rw [spelled_kept, spelled_kept, ← ih fun i => chosen (i + 1)]
    exact expandAliases_escaped hc _
  | case7 rest h ih =>
    rw [← singleton_prefix_iff, ← singleton_prefix_iff] at h
    rw [spelled_kept, spelled_kept, ← ih fun i => chosen (i + 1)]
    exact expandAliases_lookBehind (h.imp (prefix_spelled (forall_mem_one (by decide))).mpr
      (prefix_spelled (forall_mem_one (by decide))).mpr)
  | case8 rest h ih =>
    rw [← singleton_prefix_iff, ← singleton_prefix_iff] at h
    rw [spelled, spelled, if_pos rfl, ← ih fun i => chosen (i + 1)]
    split
    · exact expandAliases_long (forall_mem_one (by decide)) _
    · exact expandAliases_group fun h' => h (h'.imp (prefix_spelled (forall_mem_one (by decide))).mp
        (prefix_spelled (forall_mem_one (by decide))).mp)
  | case9 c rest h1 h2 h3 ih =>
    have hc : c ≠ '\\' := by
      rintro rfl
      cases rest with
      | nil => exact h1 rfl rfl
      | cons d rest => exact h2 d rest rfl rfl
    have hgroup : c = '(' → ¬['?', '<'] <+: rest := by
      rintro hc ⟨more, h⟩
      exact h3 more hc h.symm
    rw [spelled_kept, spelled_kept, ← ih fun i => chosen (i + 1)]
    have hmark : ∀ c ∈ ['?', '<'], c ≠ '\\' ∧ c ≠ '(' :=
      List.forall_mem_cons.mpr ⟨by decide, forall_mem_one (by decide)⟩
    exact expandAliases_passed hc fun hc => mt (prefix_spelled hmark).mp (hgroup hc)

/-- With no short spelling spelled out, the pieces are the pattern. -/
theorem spelled_none (s : List Char) : spelled (fun _ => false) (aliasPieces s) = s := by
  fun_induction aliasPieces s with
  | case1 => rfl
  | case2 => rw [spelled_kept]; rfl
  | case3 inner name after hname _ ih =>
    obtain ⟨rfl, -, -⟩ := eq_of_bracketedName? hname
    rw [spelled, ih, if_neg Bool.false_ne_true]
    exact congrArg (['\\', 'k', '<'] ++ ·) (List.append_assoc name ['>'] after)
  | case8 rest _ ih =>
    rw [spelled, ih, if_neg Bool.false_ne_true]
    rfl
  | case4 _ _ ih | case5 _ _ ih | case6 _ _ _ ih | case7 _ _ ih | case9 _ _ _ _ _ ih => rw [spelled_kept, ih]; rfl

/-- **With every short spelling spelled out, the pieces are the long spelling.** -/
theorem spelled_all (s : List Char) : spelled (fun _ => true) (aliasPieces s) = expandAliases s := by
  rw [← expandAliases_spelled s fun _ => false, spelled_none]

end

/-! ## One meaning -/

/-- **Mixed spellings of a pattern mean what the pattern means.**  However many of its short spellings are spelled out,
from none of them to all, which is its long spelling, the long spelling is the same, that of the long spelling itself
included; so the same expression is compiled from each of them under any switches, and each is refused for the same
fault. -/
theorem expandAliases_confluent [Interpreter] (pattern : String) :
    expandAliases (expandAliases pattern.toList) = expandAliases pattern.toList ∧
    (spelledOut (fun _ => false) pattern = pattern ∧
      spelledOut (fun _ => true) pattern = String.ofList (expandAliases pattern.toList)) ∧
    ∀ chosen, expandAliases (spelledOut chosen pattern).toList = expandAliases pattern.toList ∧
      ∀ flags, Finder.compile (spelledOut chosen pattern) flags =
        (Finder.compile pattern flags).mapError fun fault => { fault with pattern := spelledOut chosen pattern } := by
  have hspelled (chosen : Nat → Bool) :
      expandAliases (spelledOut chosen pattern).toList = expandAliases pattern.toList := by
    rw [spelledOut, String.toList_ofList, expandAliases_spelled, spelled_all]
  refine ⟨?_, ⟨?_, ?_⟩, fun chosen => ⟨hspelled chosen, fun flags => ?_⟩⟩
  · rw [← spelled_all pattern.toList, expandAliases_spelled]
  · rw [spelledOut, spelled_none, String.ofList_toList]
  · rw [spelledOut, spelled_all]
  · rw [Finder.compile, Finder.compile, hspelled]
    cases Expression.ofText (String.ofList (expandAliases pattern.toList)) flags <;> rfl

end SlotEdit.Regex
