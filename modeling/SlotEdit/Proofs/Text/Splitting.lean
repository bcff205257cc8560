import Mathlib.Data.List.Chain
import SlotEdit.Text.Splitting

/-!
# Proofs/Text/Splitting — which lists of lines are the lines of a text, and line breaks unified

The lines of a text are cut nowhere inside and end in a line break, but for the last one
(`broken_splitLines`).  Such lines one behind the other are cut again where they meet, unless a line feed
starts one of them (`splitLines_flatten`).

Every offset of a text with its line breaks unified is that of a place in the text itself
(`exists_unified_split`), and text between two such places comes through unchanged just when no carriage
return stands in it (`unifyNewlineChars_eq_self`).
-/

namespace SlotEdit

variable {α : Type} {char : α → Char}

/-- No line ends between two letters. -/
def Joined (char : α → Char) (a b : α) : Prop := endsLine (char a) (some (char b)) = false

/-- **A line that is cut nowhere inside.** -/
structure Uncut (char : α → Char) (line : List α) : Prop where
  ne_nil : line ≠ []
  joined : line.IsChain (Joined char)

/-- Whether a line ends in a line break. -/
def endsInBreak (char : α → Char) (line : List α) : Bool := line.getLast?.any fun a => isLineBreak (char a)

/-- **Lines of which all but the last end in a line break.** -/
def Broken (char : α → Char) (lines : List (List α)) : Prop := ∀ l ∈ lines.dropLast, endsInBreak char l = true

theorem isLineBreak_of_endsLine {c : Char} {next : Option Char} (h : endsLine c next = true) : isLineBreak c = true :=
  (Bool.and_eq_true_iff.mp h).1

/-- Behind a line break a line ends unless a line feed follows. -/
theorem endsLine_of_isLineBreak {c : Char} {next : Option Char} (h : isLineBreak c = true) (hnext : next ≠ some '\n') :
    endsLine c next = true := by
  rw [endsLine, h, beq_eq_false_iff_ne.mpr hnext, Bool.and_false, Bool.not_false, Bool.and_true]

theorem joined_of_isLineBreak {a : α} (h : isLineBreak (char a) = false) (b : α) : Joined char a b := by
  rw [Joined, endsLine, h, Bool.false_and]

/-- **A line in front of a text** is read up to its last letter, and then it depends on what follows. -/
theorem splitLinesFrom_concat_append {line soFar rest : List α} {a : α} (h : (line ++ [a]).IsChain (Joined char)) :
    splitLinesFrom char soFar (line ++ a :: rest) =
      if endsLine (char a) (rest.head?.map char) then (soFar.reverse ++ line ++ [a]) :: splitLinesFrom char [] rest
      else splitLinesFrom char (a :: (line.reverse ++ soFar)) rest := by
  induction line generalizing soFar with
  | nil =>
    rw [List.nil_append, splitLinesFrom, List.reverse_cons, List.append_nil]
    rfl
  | cons b line ih =>
    have hnext : endsLine (char b) ((line ++ a :: rest).head?.map char) = false := by
      cases line with
      | nil => exact (List.isChain_cons_cons.mp h).1
      | cons c line => exact (List.isChain_cons_cons.mp h).1
    rw [List.cons_append, splitLinesFrom, if_neg (Bool.eq_false_iff.mp hnext), ih (List.IsChain.tail h)]
    simp

theorem Uncut.exists_concat {l : List α} (h : Uncut char l) :
    ∃ line a, l = line ++ [a] ∧ (line ++ [a]).IsChain (Joined char) := by
  rcases List.eq_nil_or_concat l with rfl | ⟨line, a, rfl⟩
  · exact absurd rfl h.ne_nil
  · rw [List.concat_eq_append] at h ⊢
    exact ⟨line, a, rfl, h.joined⟩

/-- **Uncut lines that end in line breaks**, but for the last, are the lines of the text they make, when no
line feed starts one of them. -/
theorem splitLines_flatten {lines : List (List α)} (huncut : ∀ l ∈ lines, Uncut char l) (hbroken : Broken char lines)
    (hstart : ∀ l ∈ lines, ∀ a ∈ l.head?, char a ≠ '\n') : splitLines char lines.flatten = lines := by
  induction lines with
  | nil => rfl
  | cons l lines ih =>
    rw [List.forall_mem_cons] at huncut hstart
    obtain ⟨line, a, rfl, hjoined⟩ := huncut.1.exists_concat
    rw [List.flatten_cons, List.append_assoc, List.singleton_append, splitLines, splitLinesFrom_concat_append hjoined,
      List.reverse_nil, List.nil_append]
    cases lines with
    | nil =>
      split
      · rfl
      · simp [splitLinesFrom]
    | cons m lines =>
      rw [Broken, List.dropLast_cons_cons, List.forall_mem_cons] at hbroken
      have hbreak : isLineBreak (char a) = true := by
        have hends := hbroken.1
        rwa [endsInBreak, List.getLast?_concat] at hends
      have hnext : (m :: lines).flatten.head?.map char ≠ some '\n' := by
        obtain ⟨b, rest, rfl⟩ := List.exists_cons_of_ne_nil (huncut.2 m List.mem_cons_self).ne_nil
        exact fun h => hstart.2 _ List.mem_cons_self b rfl (Option.some.inj h)
      rw [if_pos (endsLine_of_isLineBreak hbreak hnext)]
      exact congrArg _ (ih huncut.2 hbroken.2 hstart.2)

theorem Broken.cons {l : List α} {lines : List (List α)} (hl : endsInBreak char l = true) (h : Broken char lines) :
    Broken char (l :: lines) := by
  cases lines with
  | nil => exact nofun
  | cons m lines =>
    rw [Broken, List.dropLast_cons_cons]
    exact List.forall_mem_cons.mpr ⟨hl, h⟩

/-- Lines that end in line breaks may stand in front. -/
theorem Broken.behind {front lines : List (List α)} (hfront : ∀ l ∈ front, endsInBreak char l = true)
    (h : Broken char lines) : Broken char (front ++ lines) := by
  induction front with
  | nil => exact h
  | cons l front ih =>
    rw [List.forall_mem_cons] at hfront
    exact (ih hfront.2).cons hfront.1

/-- Lines in a row among others. -/
theorem Broken.infix {front lines back : List (List α)} (h : Broken char (front ++ lines ++ back)) : Broken char lines := by
  intro l hl
  refine h l ?_
  cases back with
  | nil =>
    rw [List.append_nil, List.dropLast_append_of_ne_nil (fun hnil => by rw [hnil] at hl; cases hl)]
    exact List.mem_append_right front hl
  | cons m back =>
    rw [List.dropLast_append_cons]
    exact List.mem_append_left _ (List.mem_append_right front (List.dropLast_subset lines hl))

/-- A line that goes on behind its last letter, which is no line break. -/
theorem Uncut.append {l m : List α} (hl : Uncut char l) (hopen : endsInBreak char l = false) (hm : Uncut char m) :
    Uncut char (l ++ m) := by
  refine ⟨List.append_ne_nil_of_left_ne_nil hl.ne_nil m, hl.joined.append hm.joined fun a ha b _ => ?_⟩
  rw [endsInBreak, Option.mem_def.mp ha] at hopen
  exact joined_of_isLineBreak hopen b

theorem endsInBreak_append (l : List α) {m : List α} (hm : m ≠ []) : endsInBreak char (l ++ m) = endsInBreak char m := by
  rw [endsInBreak, endsInBreak, List.getLast?_append_of_ne_nil l hm]

/-- The lines of what follows a part of a line. -/
theorem broken_splitLinesFrom {soFar s : List α} (h : (soFar.reverse ++ s.head?.toList).IsChain (Joined char)) :
    (∀ l ∈ splitLinesFrom char soFar s, Uncut char l) ∧ Broken char (splitLinesFrom char soFar s) := by
  induction s generalizing soFar with
  | nil =>
    rw [splitLinesFrom]
    cases soFar with
    | nil => exact ⟨fun _ => (absurd · List.not_mem_nil), fun _ => (absurd · List.not_mem_nil)⟩
    | cons a soFar =>
      refine ⟨List.forall_mem_singleton.mpr ⟨by simp, ?_⟩, fun _ => (absurd · List.not_mem_nil)⟩
      exact h.left_of_append
  | cons c rest ih =>
    have hline : (c :: soFar).reverse.IsChain (Joined char) := by
      rw [List.reverse_cons]
      exact h
    rw [splitLinesFrom]
    split
    · next hends =>
      have hnext : (([] : List α).reverse ++ rest.head?.toList).IsChain (Joined char) := by cases rest <;> simp
      obtain ⟨huncut, hbroken⟩ := ih hnext
      refine ⟨List.forall_mem_cons.mpr ⟨⟨by simp, hline⟩, huncut⟩, hbroken.cons ?_⟩
      rw [endsInBreak, List.reverse_cons, List.getLast?_concat]
      exact isLineBreak_of_endsLine hends
    · next hgoes =>
      refine ih (hline.append (by cases rest <;> simp) fun a ha b hb => ?_)
      cases rest with
      | nil => cases hb
      | cons d rest =>
        rw [List.reverse_cons, List.getLast?_concat] at ha
        obtain rfl := Option.some.inj ha
        obtain rfl := Option.some.inj hb
        exact Bool.eq_false_iff.mpr hgoes

/-- **The lines of a text** are uncut, and all but the last end in a line break. -/
theorem broken_splitLines (char : α → Char) (s : List α) :
    (∀ l ∈ splitLines char s, Uncut char l) ∧ Broken char (splitLines char s) :=
  broken_splitLinesFrom (by cases s <;> simp)

/-- The last line of a text ends as the text does. -/
theorem endsInBreak_of_getLast? {s l : List α} (h : (splitLines char s).getLast? = some l) :
    endsInBreak char l = endsInBreak char s := by
  obtain ⟨front, hfront⟩ := List.getLast?_eq_some_iff.mp h
  have huncut := (broken_splitLines char s).1 l (List.mem_of_getLast? h)
  have hs := flatten_splitLines char s
  rw [hfront, List.flatten_append, List.flatten_singleton] at hs
  rw [← hs, endsInBreak_append _ huncut.ne_nil]

/-! ## Unifying line breaks keeps the pieces of a text -/

section

variable {s p q : List Char}

theorem unifyNewlineChars_cons {c : Char} (h : c = '\r' → s.head? ≠ some '\n') :
    unifyNewlineChars (c :: s) = (if c = '\r' then '\n' else c) :: unifyNewlineChars s := by
  rw [unifyNewlineChars.eq_def]
  split
  · next heq => cases heq
  · next heq =>
    obtain ⟨rfl, rfl⟩ := List.cons.inj heq
    exact absurd rfl (h rfl)
  · next heq =>
    obtain ⟨rfl, rfl⟩ := List.cons.inj heq
    rfl

/-- **No carriage return is left.** -/
theorem notMem_unifyNewlineChars (s : List Char) : '\r' ∉ unifyNewlineChars s := by
  induction s using unifyNewlineChars.induct with
  | case1 => exact List.not_mem_nil
  | case2 rest ih =>
    rw [unifyNewlineChars, List.mem_cons, not_or]
    exact ⟨by decide, ih⟩
  | case3 c rest hc ih =>
    rw [unifyNewlineChars, List.mem_cons, not_or]
    · refine ⟨?_, ih⟩
      split
      · decide
      · next hne => exact fun heq => hne heq.symm
    · exact hc

theorem length_unifyNewlineChars_le (s : List Char) : (unifyNewlineChars s).length ≤ s.length := by
  induction s using unifyNewlineChars.induct with
  | case1 => exact Nat.le_refl 0
  | case2 rest ih =>
    rw [unifyNewlineChars, List.length_cons, List.length_cons, List.length_cons]
    omega
  | case3 c rest hc ih =>
    rw [unifyNewlineChars, List.length_cons, List.length_cons]
    · omega
    · exact hc

theorem unifyNewlineChars_eq_self : unifyNewlineChars s = s ↔ '\r' ∉ s :=
  ⟨fun h => h ▸ notMem_unifyNewlineChars s, unifyNewlineChars_of_notMem⟩

/-- **Every place of the unified text is one of the text**, not between the two characters of a line
break. -/
theorem exists_unified_split {n : Nat} (h : n ≤ (unifyNewlineChars s).length) :
    ∃ p q, s = p ++ q ∧ unifyNewlineChars s = unifyNewlineChars p ++ unifyNewlineChars q ∧
      (unifyNewlineChars p).length = n := by
  induction s using unifyNewlineChars.induct generalizing n with
  | case1 => exact ⟨[], [], rfl, rfl, (Nat.le_zero.mp h).symm⟩
  | case2 rest ih =>
    cases n with
    | zero => exact ⟨[], _, rfl, rfl, rfl⟩
    | succ n =>
      rw [unifyNewlineChars, List.length_cons] at h
      obtain ⟨p, q, rfl, hunified, hlength⟩ := ih (Nat.le_of_succ_le_succ h)
      refine ⟨'\r' :: '\n' :: p, q, rfl, ?_, ?_⟩
      · rw [unifyNewlineChars, unifyNewlineChars, hunified, List.cons_append]
      · rw [unifyNewlineChars, List.length_cons, hlength]
  | case3 c rest hc ih =>
    cases n with
    | zero => exact ⟨[], _, rfl, rfl, rfl⟩
    | succ n =>
      have hhead : c = '\r' → rest.head? ≠ some '\n' := by
        rintro rfl hhead
        obtain ⟨rest', rfl⟩ := List.head?_eq_some_iff.mp hhead
        exact hc rest' rfl rfl
      rw [unifyNewlineChars_cons hhead, List.length_cons] at h
      obtain ⟨p, q, rfl, hunified, hlength⟩ := ih (Nat.le_of_succ_le_succ h)
      have hhead' : c = '\r' → p.head? ≠ some '\n' := by
        intro hcr hp
        obtain ⟨p', rfl⟩ := List.head?_eq_some_iff.mp hp
        exact hhead hcr rfl
      refine ⟨c :: p, q, rfl, ?_, ?_⟩
      · rw [unifyNewlineChars_cons hhead, unifyNewlineChars_cons hhead', hunified, List.cons_append]
      · rw [unifyNewlineChars_cons hhead', List.length_cons, hlength]

/-- A piece of the unified text is one of the text. -/
theorem exists_unified_piece {a b : Nat} (hab : a ≤ b) (hb : b ≤ (unifyNewlineChars s).length) :
    ∃ p g q, s = p ++ g ++ q ∧
      unifyNewlineChars s = unifyNewlineChars p ++ unifyNewlineChars g ++ unifyNewlineChars q ∧
      (unifyNewlineChars p).length = a ∧ (unifyNewlineChars p).length + (unifyNewlineChars g).length = b := by
  obtain ⟨p, r, rfl, hunified, rfl⟩ := exists_unified_split (Nat.le_trans hab hb)
  rw [hunified, List.length_append] at hb
  obtain ⟨g, q, rfl, hunified', hlength⟩ := exists_unified_split (s := r) (n := b - (unifyNewlineChars p).length) (by omega)
  refine ⟨p, g, q, (List.append_assoc _ _ _).symm, ?_, rfl, by omega⟩
  rw [hunified, hunified', List.append_assoc]

/-- **What stands around a piece comes through unchanged** just when it holds no carriage return. -/
theorem unifyNewlineChars_around (p w q : List Char) :
    unifyNewlineChars p ++ w ++ unifyNewlineChars q = p ++ w ++ q ↔ '\r' ∉ p ∧ '\r' ∉ q := by
  constructor
  · intro h
    have hlength := congrArg List.length h
    simp only [List.length_append] at hlength
    have hp := length_unifyNewlineChars_le p
    have hq := length_unifyNewlineChars_le q
    rw [List.append_assoc, List.append_assoc] at h
    obtain ⟨hfront, hrest⟩ := List.append_inj h (by omega)
    exact ⟨unifyNewlineChars_eq_self.mp hfront, unifyNewlineChars_eq_self.mp (List.append_cancel_left hrest)⟩
  · rintro ⟨hp, hq⟩
    rw [unifyNewlineChars_of_notMem hp, unifyNewlineChars_of_notMem hq]

end

end SlotEdit
