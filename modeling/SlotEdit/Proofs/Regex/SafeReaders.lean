import SlotEdit.Proofs.Regex.Places
import SlotEdit.Proofs.Results

/-!
# Proofs/Regex/SafeReaders — readers that fail for a reason that stands in the text

A text is refused as malformed, or for one of four limits, and then it has in it what passes the limit
(`Fault.Foreseen`).  A reader is `Safe` behind some characters of the text when it fails with such faults
only, and leaves a reading of the text; readers are composed of safe ones.
-/

namespace SlotEdit.Regex

variable {α β : Type} {s s' : Reading}

/-! ## What a refusal is about -/

/-- Digits between two of a brace, a comma and a brace, where counts are written. -/
def CountIn (text digits : List Char) : Prop :=
  (∀ c ∈ digits, isAsciiDigit c = true) ∧ ∃ first last, (first = '\x7b' ∨ first = ',') ∧ (last = ',' ∨ last = '\x7d') ∧
    first :: digits ++ [last] <:+: text

/-- Letters of switches in parentheses behind a question mark, one of which is the letter of a switch. -/
def SwitchIn (text : List Char) (flag : Flag) : Prop :=
  ∃ letters, (∀ c ∈ letters, isFlagLetter c = true) ∧ (∃ c ∈ letters, flagOf? c = some flag) ∧
    ['(', '?'] ++ letters ++ [')'] <:+: text

/-- **The faults of a text under switches**, and what the text has in it. -/
inductive Fault.Foreseen [Interpreter] (text : List Char) (flags : Flags) : Fault → Prop
  | malformed (cause : Cause) (offset : Option Nat) : Foreseen text flags (.malformed cause offset)
  | countTooLarge {digits : List Char} (h : CountIn text digits) (hlarge : countLimit ≤ digitsValue digits) :
      Foreseen text flags .countTooLarge
  | unreadableCount {digits : List Char} (fault : NumberFault) (h : CountIn text digits)
      (hlong : digitLimit < digits.length) : Foreseen text flags (.unreadableCount fault)
  | incompatibleFlags (hascii : .ascii ∈ flags ∨ SwitchIn text .ascii)
      (hunicode : .unicode ∈ flags ∨ SwitchIn text .unicode) : Foreseen text flags .incompatibleFlags
  | tooDeep (h : nestingLimit < text.count '(') : Foreseen text flags .tooDeep

/-! ## Readings of a text -/

@[simp]
theorem Glyph.toList_text_plain (c : Char) : (Glyph.plain c).text.toList = [c] := String.toList_singleton c

/-- The characters that are left. -/
def Reading.left (s : Reading) : List Char := s.glyphs.flatMap fun g => g.text.toList

/-- **A reading of a text** that has just passed some characters, with at least so many opening parentheses
behind it. -/
structure Reading.Stage (text : List Char) (flags : Flags) (depth : Nat) (passed : List Char) (s : Reading) : Prop where
  suffix : passed ++ s.left <:+ text
  depth : depth + s.left.count '(' ≤ text.count '('
  flags : ∀ f ∈ s.flags, f ∈ flags ∨ SwitchIn text f

variable {text : List Char} {flags : Flags} {k : Nat} {b : List Char}

namespace Reading.Stage

/-- What has been passed may be forgotten. -/
theorem forget (h : s.Stage text flags k b) : s.Stage text flags k [] :=
  ⟨(List.suffix_append b s.left).trans h.suffix, h.depth, h.flags⟩

theorem lower (h : s.Stage text flags (k + 1) b) : s.Stage text flags k b :=
  ⟨h.suffix, by have := h.depth; omega, h.flags⟩

/-- What has been passed stands in the text. -/
theorem passed_infix (h : s.Stage text flags k b) : b <:+: text :=
  (List.prefix_append b s.left).isInfix.trans h.suffix.isInfix

/-- What else a reading knows does not matter. -/
theorem congr (h : s.Stage text flags k b) (hpieces : s'.pieces = s.pieces) (hflags : s'.flags = s.flags) :
    s'.Stage text flags k b := by
  have hleft : s'.left = s.left := by rw [left, glyphs, hpieces]; rfl
  exact ⟨hleft ▸ h.suffix, hleft ▸ h.depth, hflags ▸ h.flags⟩

theorem of_take {g : Glyph} (h : s.Stage text flags k b) (htake : take s = .ok (some g, s')) :
    s'.Stage text flags k (b ++ g.text.toList) ∧ (g = .plain '(' → s'.Stage text flags (k + 1) (b ++ ['('])) := by
  have hleft : s.left = g.text.toList ++ s'.left := by rw [left, glyphs_of_take htake, List.flatMap_cons]; rfl
  have hflags : s'.flags = s.flags := by rw [(take_eq_ok.mp htake).2.1]; rfl
  have hsuffix : (b ++ g.text.toList) ++ s'.left <:+ text := by
    rw [List.append_assoc, ← hleft]
    exact h.suffix
  have hdepth := h.depth
  rw [hleft, List.count_append] at hdepth
  refine ⟨⟨hsuffix, by omega, hflags ▸ h.flags⟩, fun hg => ?_⟩
  subst hg
  have hone : (Glyph.plain '(').text.toList.count '(' = 1 := rfl
  exact ⟨hsuffix, by omega, hflags ▸ h.flags⟩

end Reading.Stage

/-- The characters of the pieces of a text. -/
theorem flatMap_glyphs (cs : List Char) : (glyphs cs).flatMap (fun g => g.text.toList) = cs := by
  fun_induction glyphs cs with
  | case1 => rfl
  | case2 => rfl
  | case3 c rest ih => simpa [Glyph.text] using ih
  | case4 c rest _ _ ih => simpa using ih

theorem stage_start (text : List Char) (flags : Flags) : (Reading.start text flags).Stage text flags 0 [] := by
  have hleft : (Reading.start text flags).left = text := by
    rw [Reading.left, Reading.glyphs, Reading.start, map_glyph_piecesFrom, flatMap_glyphs]
  refine ⟨hleft.symm ▸ List.suffix_refl _, ?_, fun f hf => .inl hf⟩
  rw [hleft, Nat.zero_add]

theorem bind_eq_error {m : Reader α} {f : α → Reader β} {e : Fault} :
    (m >>= f) s = .error e ↔ m s = .error e ∨ ∃ a s₁, m s = .ok (a, s₁) ∧ f a s₁ = .error e := by
  change (m s >>= fun r => f r.1 r.2) = _ ↔ _
  rw [SlotEdit.bind_eq_error]
  exact or_congr_right ⟨fun ⟨r, h, h'⟩ => ⟨r.1, r.2, h, h'⟩, fun ⟨a, s₁, h, h'⟩ => ⟨(a, s₁), h, h'⟩⟩

theorem malformed_of_checkNext {fault : Fault} (h : checkNext s = .error fault) : ∃ cause offset, fault = .malformed cause offset := by
  match s with
  | ⟨[], _, _, _, _, _, _⟩ => cases h
  | ⟨⟨_, .plain _⟩ :: _, _, _, _, _, _, _⟩ => cases h
  | ⟨⟨_, .escaped _⟩ :: _, _, _, _, _, _, _⟩ => cases h
  | ⟨⟨_, .loneBackslash⟩ :: _, _, _, _, _, _, _⟩ => exact ⟨_, _, (Except.error.inj h).symm⟩

/-! ## Safe readers -/

variable [Interpreter]

/-- A reader fails with foreseen faults only, and leaves a reading of the text behind the characters that `Q`
says. -/
structure SafeAt (text : List Char) (flags : Flags) (k : Nat) (s : Reading) (m : Reader α) (Q : α → List Char → Prop) :
    Prop where
  ok : ∀ {a s'}, m s = .ok (a, s') → ∃ b, Q a b ∧ s'.Stage text flags k b
  error : ∀ {fault}, m s = .error fault → fault.Foreseen text flags

/-- **A reader is safe** behind some characters. -/
def Safe (text : List Char) (flags : Flags) (k : Nat) (b : List Char) (m : Reader α) (Q : α → List Char → Prop) : Prop :=
  ∀ s : Reading, s.Stage text flags k b → SafeAt text flags k s m Q

/-- A reader that is safe wherever it starts. -/
structure Fair (text : List Char) (flags : Flags) (k : Nat) (m : Reader α) : Prop where
  anywhere : Safe text flags k [] m fun _ _ => True

section

variable {m : Reader α} {f : α → Reader β} {Q : α → List Char → Prop} {R : β → List Char → Prop}

namespace SafeAt

theorem bind (hm : SafeAt text flags k s m Q) (hf : ∀ a b, Q a b → Safe text flags k b (f a) R) :
    SafeAt text flags k s (m >>= f) R where
  ok h := by
    obtain ⟨a, s₁, ha, hc⟩ := bind_eq_ok.mp h
    obtain ⟨b, hQ, hs₁⟩ := hm.ok ha
    exact (hf a b hQ s₁ hs₁).ok hc
  error h := by
    rcases bind_eq_error.mp h with ha | ⟨a, s₁, ha, hfault⟩
    · exact hm.error ha
    · obtain ⟨b, hQ, hs₁⟩ := hm.ok ha
      exact (hf a b hQ s₁ hs₁).error hfault

theorem throw {e : Fault} (h : e.Foreseen text flags) : SafeAt text flags k s (throw e : Reader α) Q :=
  ⟨nofun, fun hm => Except.error.inj hm ▸ h⟩

/-- A step that succeeds. -/
theorem step_bind {a : α} (hm : m s = .ok (a, s')) (h : SafeAt text flags k s' (f a) R) :
    SafeAt text flags k s (m >>= f) R where
  ok hc := by
    obtain ⟨a', s₁, ha, hc⟩ := bind_eq_ok.mp hc
    obtain ⟨rfl, rfl⟩ := Prod.mk.inj (Except.ok.inj (hm.symm.trans ha))
    exact h.ok hc
  error hc := by
    rcases bind_eq_error.mp hc with ha | ⟨a', s₁, ha, hfault⟩
    · cases hm.symm.trans ha
    · obtain ⟨rfl, rfl⟩ := Prod.mk.inj (Except.ok.inj (hm.symm.trans ha))
      exact h.error hfault

theorem peek_bind {f : Option Glyph → Reader β} (h : SafeAt text flags k s (f s.glyphs.head?) R) :
    SafeAt text flags k s (peek >>= f) R := step_bind (peek_eq s) h

end SafeAt

namespace Safe

theorem fair (h : Safe text flags k [] m Q) : Fair text flags k m :=
  ⟨fun s hs => ⟨fun hm => ((h s hs).ok hm).imp fun _ h => ⟨trivial, h.2⟩, (h s hs).error⟩⟩

theorem pure {a : α} (h : Q a b) : Safe text flags k b (Pure.pure a) Q := by
  refine fun s hs => ⟨fun hm => ?_, nofun⟩
  obtain ⟨rfl, rfl⟩ := Prod.mk.inj (Except.ok.inj hm)
  exact ⟨b, h, hs⟩

theorem bind (hm : Safe text flags k b m Q) (hf : ∀ a b', Q a b' → Safe text flags k b' (f a) R) :
    Safe text flags k b (m >>= f) R := fun s hs => (hm s hs).bind hf

theorem get_bind {f : Reading → Reader β} (h : ∀ s, s.Stage text flags k b → Safe text flags k b (f s) R) :
    Safe text flags k b (get >>= f) R := fun s hs => .step_bind rfl (h s hs s hs)

theorem refuseAt {cause : Cause} {offset : Nat} : Safe text flags k b (refuseAt cause offset : Reader α) Q :=
  fun _ _ => .throw (.malformed cause offset)

theorem refuse {cause : Cause} {back : Nat} : Safe text flags k b (refuse cause back : Reader α) Q :=
  fun _ _ => ⟨fun hm => absurd hm refuse_ne_ok, fun hm => Except.error.inj hm ▸ .malformed cause _⟩

/-- A reader that only looks at the reading. -/
theorem of_looks {a : Reading → α} (h : ∀ s, m s = .ok (a s, s)) : Safe text flags k b m fun _ b' => b' = b := by
  refine fun s hs => ⟨fun hm => ?_, fun hm => nomatch (h s).symm.trans hm⟩
  obtain ⟨-, rfl⟩ := Prod.mk.inj (Except.ok.inj ((h s).symm.trans hm))
  exact ⟨b, rfl, hs⟩

end Safe

namespace Fair

theorem safe (h : Fair text flags k m) : Safe text flags k b m fun _ _ => True := fun s hs => h.anywhere s hs.forget

theorem pure {a : α} : Fair text flags k (Pure.pure a) := ⟨Safe.pure trivial⟩

theorem bind (hm : Fair text flags k m) (hf : ∀ a, Fair text flags k (f a)) : Fair text flags k (m >>= f) :=
  ⟨hm.anywhere.bind fun a _ _ => (hf a).safe⟩

theorem map {g : α → β} (hm : Fair text flags k m) : Fair text flags k (g <$> m) := bind hm fun _ => pure

theorem refuse {cause : Cause} {back : Nat} : Fair text flags k (refuse cause back : Reader α) := ⟨Safe.refuse⟩

theorem refuseAt {cause : Cause} {offset : Nat} : Fair text flags k (refuseAt cause offset : Reader α) := ⟨Safe.refuseAt⟩

theorem get_bind {f : Reading → Reader β} (h : ∀ s, s.Stage text flags k [] → Fair text flags k (f s)) :
    Fair text flags k (get >>= f) := ⟨Safe.get_bind fun s hs => (h s hs).anywhere⟩

theorem looks {a : Reading → α} (h : ∀ s, m s = .ok (a s, s)) : Fair text flags k m := (Safe.of_looks h).fair

theorem set (h : s.Stage text flags k []) : Fair text flags k (set s) := by
  refine ⟨fun _ _ => ⟨fun hm => ?_, nofun⟩⟩
  obtain ⟨-, rfl⟩ := Prod.mk.inj (Except.ok.inj hm)
  exact ⟨[], trivial, h⟩

theorem modify {φ : Reading → Reading} (h : ∀ s, s.Stage text flags k [] → (φ s).Stage text flags k []) :
    Fair text flags k (modify φ) := by
  refine ⟨fun s hs => ⟨fun hm => ?_, nofun⟩⟩
  obtain ⟨-, rfl⟩ := Prod.mk.inj (Except.ok.inj hm)
  exact ⟨[], trivial, h s hs⟩

end Fair

end

/-! ## Basic readers -/

theorem fair_checkNext : Fair text flags k checkNext := by
  refine ⟨fun s hs => ⟨fun h => ?_, fun h => ?_⟩⟩
  · obtain ⟨-, rfl⟩ := checkNext_eq_ok h
    exact ⟨[], trivial, hs⟩
  · obtain ⟨cause, offset, rfl⟩ := malformed_of_checkNext h
    exact .malformed cause offset

theorem foreseen_of_take {fault : Fault} (h : take s = .error fault) : fault.Foreseen text flags := by
  rw [take_eq] at h
  cases hcheck : checkNext s.behind with
  | ok r => rw [hcheck] at h; cases h
  | error e =>
    rw [hcheck] at h
    obtain ⟨cause, offset, rfl⟩ := malformed_of_checkNext hcheck
    exact Except.error.inj h ▸ .malformed cause offset

/-- **A piece is taken**: it has just been passed. -/
theorem safe_take : Safe text flags k b take fun g b' => ∀ x, g = some x → b' = b ++ x.text.toList := by
  refine fun s hs => ⟨fun {g s'} h => ?_, foreseen_of_take⟩
  cases g with
  | none =>
    obtain ⟨hnone, rfl, -⟩ := take_eq_ok.mp h
    have hleft : s.behind.left = s.left := by
      rw [Reading.left, Reading.left, s.glyphs_behind, List.head?_eq_none_iff.mp hnone.symm]
      rfl
    exact ⟨b, nofun, hleft ▸ hs.suffix, hleft ▸ hs.depth, hs.flags⟩
  | some x => exact ⟨_, fun x' hx => Option.some.inj hx ▸ rfl, (hs.of_take h).1⟩

theorem fair_take : Fair text flags k take := safe_take.fair

/-- The piece that is next is taken. -/
theorem SafeAt.take_bind {f : Option Glyph → Reader β} {R : β → List Char → Prop} {g : Glyph} (hs : s.Stage text flags k b)
    (hg : s.glyphs.head? = some g) (h : Safe text flags k (b ++ g.text.toList) (f (some g)) R) :
    SafeAt text flags k s (take >>= f) R := by
  have hat : SafeAt text flags k s take fun x b' => x = some g ∧ b' = b ++ g.text.toList := by
    refine ⟨fun {x s'} htake => ?_, foreseen_of_take⟩
    obtain rfl : x = some g := (take_eq_ok.mp htake).1.trans hg
    exact ⟨_, ⟨rfl, rfl⟩, (hs.of_take htake).1⟩
  refine hat.bind ?_
  rintro x b' ⟨rfl, rfl⟩
  exact h

theorem safe_isNext (c : Char) : Safe text flags k b (isNext c) fun _ b' => b' = b := .of_looks (isNext_eq c)

/-- **A character is accepted** and has then just been passed. -/
theorem safe_accept (c : Char) : Safe text flags k b (accept c) fun r b' => b' = b ++ if r then [c] else [] := by
  refine fun s hs => .step_bind (isNext_eq c s) ?_
  cases hc : s.glyphs.head? == some (.plain c) with
  | false => exact Safe.pure (by simp) s hs
  | true => exact .take_bind hs (beq_iff_eq.mp hc) (.pure (by simp))

/-- **A run of characters is taken.** -/
theorem safe_takeWhile (p : Char → Bool) (turns : Nat) :
    Safe text flags k b (takeWhile p turns) fun cs b' => (∀ c ∈ cs, p c = true) ∧ b' = b ++ cs := by
  induction turns generalizing b with
  | zero => exact .pure ⟨nofun, (List.append_nil b).symm⟩
  | succ turns ih =>
    unfold takeWhile
    refine fun s hs => .peek_bind ?_
    split
    · next c hhead =>
      split
      · next hc =>
        refine .take_bind hs hhead (ih.bind ?_)
        rintro cs b' ⟨hcs, rfl⟩
        exact .pure ⟨List.forall_mem_cons.mpr ⟨hc, hcs⟩, by simp⟩
      · exact Safe.pure ⟨nofun, (List.append_nil b).symm⟩ s hs
    · exact Safe.pure ⟨nofun, (List.append_nil b).symm⟩ s hs

theorem fair_peek : Fair text flags k peek := .looks peek_eq

theorem fair_isNext (c : Char) : Fair text flags k (isNext c) := (safe_isNext c).fair

theorem fair_accept (c : Char) : Fair text flags k (accept c) := (safe_accept c).fair

theorem fair_takeWhile (p : Char → Bool) (turns : Nat) : Fair text flags k (takeWhile p turns) := (safe_takeWhile p turns).fair

/-! ## Names and escapes -/

theorem fair_refuseName (terminator : Char) (what soFar : String) : Fair text flags k (refuseName terminator what soFar) := by
  unfold refuseName
  split <;> exact .refuse

theorem fair_nameUntil (terminator : Char) (what : String) (turns : Nat) (soFar : String) :
    Fair text flags k (nameUntil terminator what turns soFar) := by
  induction turns generalizing soFar with
  | zero => exact fair_refuseName terminator what soFar
  | succ turns ih =>
    unfold nameUntil
    refine .bind fair_take fun x => ?_
    split
    · exact fair_refuseName terminator what soFar
    · split
      · split
        · exact .refuse
        · exact .pure
      · exact ih _

theorem fair_name (terminator : Char) (what : String) : Fair text flags k (name terminator what) :=
  .get_bind fun _ _ => fair_nameUntil terminator what _ ""

theorem fair_checkName (n : String) : Fair text flags k (checkName n) := by
  unfold checkName
  split
  · exact .pure
  · exact .refuse

theorem fair_hexEscape (letter : Char) (count : Nat) : Fair text flags k (hexEscape letter count) := by
  unfold hexEscape
  refine .bind (fair_takeWhile ..) fun digits => ?_
  dsimp only
  split
  · exact .refuse
  · split
    · exact .pure
    · exact .refuse

theorem fair_namedEscape : Fair text flags k namedEscape := by
  unfold namedEscape
  refine .bind (fair_accept _) fun opened => ?_
  split
  · refine .bind (fair_name ..) fun n => ?_
    split
    · exact .pure
    · exact .refuse
  · exact .refuse

theorem fair_numericEscape? (c : Char) : Fair text flags k (numericEscape? c) := by
  unfold numericEscape?
  split
  iterate 3 exact .map (fair_hexEscape ..)
  · exact .map fair_namedEscape
  · exact .pure

theorem fair_octalCode (digits : List Char) : Fair text flags k (octalCode digits) := by
  unfold octalCode
  dsimp only
  split
  · exact .refuse
  · exact .pure

theorem fair_itself (c : Char) : Fair text flags k (itself c) := by
  unfold itself
  split
  · exact .refuse
  · exact .pure

theorem fair_memberEscape (c : Char) : Fair text flags k (memberEscape c) := by
  unfold memberEscape
  split
  · exact .pure
  · exact .pure
  · refine .bind (fair_numericEscape? c) fun code => ?_
    split
    · exact .pure
    · split
      · exact .bind (fair_takeWhile ..) fun digits => .bind (fair_octalCode _) fun _ => .pure
      · exact .bind (fair_itself c) fun _ => .pure

theorem fair_isClosed (index : Nat) : Fair text flags k (isClosed index) := .looks fun _ => rfl

theorem fair_checkLookBehind (index : Nat) : Fair text flags k (checkLookBehind index) := by
  unfold checkLookBehind
  refine .get_bind fun s hs => ?_
  split
  · exact .pure
  · refine .bind (fair_isClosed index) fun closed => ?_
    split
    · exact .refuse
    · split
      · exact .refuse
      · exact .pure

theorem fair_reference (digits : List Char) : Fair text flags k (reference digits) := by
  unfold reference
  refine .bind (.looks fun _ => rfl) fun count => ?_
  split
  · refine .bind (fair_isClosed _) fun closed => ?_
    split
    · exact .bind (fair_checkLookBehind _) fun _ => .pure
    · exact .refuse
  · exact .refuse

theorem fair_digitEscape (first : Char) : Fair text flags k (digitEscape first) := by
  unfold digitEscape
  refine .bind (fair_takeWhile ..) fun second => ?_
  have hafter (third : List Char) : Fair text flags k (if third.isEmpty then reference (first :: second ++ third)
      else do pure (.code (← octalCode (first :: second ++ third)) false)) := by
    split
    · exact fair_reference _
    · exact .bind (fair_octalCode _) fun _ => .pure
  dsimp only
  split
  · exact .bind (fair_takeWhile ..) hafter
  · exact .bind .pure hafter

theorem fair_expressionEscape (c : Char) : Fair text flags k (expressionEscape c) := by
  unfold expressionEscape
  split
  iterate 3 exact .pure
  · refine .bind (fair_numericEscape? c) fun code => ?_
    split
    · exact .pure
    · split
      · exact .bind (fair_takeWhile ..) fun _ => .pure
      · split
        · exact fair_digitEscape c
        · exact .bind (fair_itself c) fun _ => .pure

/-! ## Character sets -/

theorem fair_member (glyph : Glyph) : Fair text flags k (member glyph) := by
  unfold member
  split
  · exact fair_memberEscape _
  · exact .pure
  · exact .pure

theorem fair_memberRange (first last : Glyph) (low high : Member) : Fair text flags k (memberRange first last low high) := by
  unfold memberRange
  dsimp only
  split
  · split
    · exact .refuse
    · exact .pure
  · exact .refuse

theorem fair_members (here turns : Nat) (soFar : List Member) : Fair text flags k (members here turns soFar) := by
  induction turns generalizing soFar with
  | zero => exact .refuseAt
  | succ turns ih =>
    unfold members
    refine .bind fair_take fun x => ?_
    split
    · exact .refuseAt
    · next glyph =>
      split
      · exact .pure
      · refine .bind (fair_member glyph) fun low => .bind (fair_accept _) fun ranged => ?_
        split
        · refine .bind fair_take fun y => ?_
          split
          · exact .refuseAt
          · exact .pure
          · next last _ => exact .bind (fair_member last) fun high => .bind (fair_memberRange ..) fun _ => ih _
        · exact ih _

theorem fair_characterSet (here : Nat) : Fair text flags k (characterSet here) :=
  .bind (fair_accept _) fun _ => .get_bind fun _ _ => .bind (fair_members ..) fun _ => .pure

end SlotEdit.Regex
