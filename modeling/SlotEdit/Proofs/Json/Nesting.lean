import SlotEdit.Proofs.Json.Whole

/-!
# Proofs/Json/Nesting — how deep a text nests

`nesting` tells how many frames the brackets of any text take that are open at once, those in strings
aside.  For a text with a value in it those are the frames of the value (`nesting_text`).
-/

namespace SlotEdit.Json

/-- Where a text is read: outside strings, in one, or right behind a backslash in one. -/
inductive Mode
  | plain
  | quoted
  | escaped
deriving DecidableEq, Repr

/-- The most frames that brackets open at once take in the rest of a text, when the open ones take
`frames`. -/
def deepest : Mode → Nat → List Char → Nat
  | _, frames, [] => frames
  | .escaped, frames, _ :: s => deepest .quoted frames s
  | .quoted, frames, c :: s =>
    if c = '\\' then deepest .escaped frames s
    else if c = '"' then deepest .plain frames s
    else deepest .quoted frames s
  | .plain, frames, c :: s =>
    if c = '"' then deepest .quoted frames s
    else if c = '[' then deepest .plain (frames + Bracket.array.frames) s
    else if c = '\x7b' then deepest .plain (frames + Bracket.object.frames) s
    else if c = ']' then max frames (deepest .plain (frames - Bracket.array.frames) s)
    else if c = '\x7d' then max frames (deepest .plain (frames - Bracket.object.frames) s)
    else deepest .plain frames s

/-- **How many frames the brackets of a text take** that nest in each other, those in strings aside. -/
def nesting (s : List Char) : Nat := deepest .plain 0 s

theorem le_deepest (mode : Mode) (frames : Nat) (s : List Char) : frames ≤ deepest mode frames s := by
  induction s generalizing mode frames with
  | nil => cases mode <;> exact Nat.le_refl frames
  | cons c s ih =>
    cases mode with
    | escaped => exact ih .quoted frames
    | quoted =>
      rw [deepest]
      split
      · exact ih .escaped frames
      · split
        · exact ih .plain frames
        · exact ih .quoted frames
    | plain =>
      rw [deepest]
      split
      · exact ih .quoted frames
      · split
        · exact (Nat.le_add_right frames _).trans (ih .plain _)
        · split
          · exact (Nat.le_add_right frames _).trans (ih .plain _)
          · split
            · exact Nat.le_max_left _ _
            · split
              · exact Nat.le_max_left _ _
              · exact ih .plain frames

/-- A character that is no quote and no bracket. -/
def isFlat (c : Char) : Bool :=
  c != '"' && c != '[' && c != '\x7b' && c != ']' && c != '\x7d'

theorem deepest_flat {a : List Char} (ha : ∀ c ∈ a, isFlat c = true) (frames : Nat) (s : List Char) :
    deepest .plain frames (a ++ s) = deepest .plain frames s := by
  induction a with
  | nil => rfl
  | cons c a ih =>
    rw [List.forall_mem_cons] at ha
    have hc := ha.1
    simp only [isFlat, Bool.and_eq_true, bne_iff_ne] at hc
    rw [List.cons_append, deepest, if_neg hc.1.1.1.1, if_neg hc.1.1.1.2, if_neg hc.1.1.2, if_neg hc.1.2,
      if_neg hc.2, ih ha.2]

theorem isFlat_of_blank {a : List Char} (ha : Blank a) : ∀ c ∈ a, isFlat c = true := by
  have hflat : ∀ d ∈ [' ', '\t', '\n', '\x0b', '\x0c', '\r'], isFlat d = true := List.all_eq_true.mp rfl
  exact fun c hc => hflat c (Grammar.eq_of_isAsciiBlank (ha c hc))

theorem isFlat_of_isNumberChar {c : Char} (h : Grammar.isNumberChar c = true) : isFlat c = true := by
  have hnot : ∀ d ∈ ['"', '[', '\x7b', ']', '\x7d'], Grammar.isNumberChar d = false :=
    List.all_iff_forall_prop.mp rfl
  have hne (d : Char) (hd : d ∈ ['"', '[', '\x7b', ']', '\x7d']) : c ≠ d := by
    rintro rfl
    rw [hnot _ hd] at h
    cases h
  simp only [isFlat, Bool.and_eq_true, bne_iff_ne]
  exact ⟨⟨⟨⟨hne _ (by decide), hne _ (by decide)⟩, hne _ (by decide)⟩, hne _ (by decide)⟩,
    hne _ (by decide)⟩

/-- A string is passed over. -/
theorem deepest_quoted {body : List Char} (h : Grammar.stringEnd? body = some body.length) (frames : Nat)
    (s : List Char) : deepest .quoted frames (body ++ s) = deepest .plain frames s := by
  fun_induction Grammar.stringEnd? body with
  | case1 => cases h
  | case2 rest =>
    have hnil : rest = [] := List.length_eq_zero_iff.mp (Nat.succ.inj (Option.some.inj h).symm)
    rw [hnil]
    rfl
  | case3 e rest he ih =>
    obtain ⟨n, hn, hlen⟩ := Option.map_eq_some_iff.mp h
    rw [List.cons_append, List.cons_append, deepest, if_pos rfl, deepest]
    exact ih (hn.trans (congrArg some (Nat.add_right_cancel hlen)))
  | case4 e rest he => cases h
  | case5 c rest h1 h2 h3 => cases h
  | case6 c rest hquote h2 h3 ih =>
    obtain ⟨n, hn, hlen⟩ := Option.map_eq_some_iff.mp h
    rw [not_or] at h3
    rw [List.cons_append, deepest, if_neg h3.1, if_neg hquote]
    exact ih (hn.trans (congrArg some (Nat.add_right_cancel hlen)))

open Phrase

theorem deepest_renderItems {items : List (Item Phrase)}
    (h : ∀ i ∈ items, ∀ frames s, deepest .plain frames (i.content.render ++ s)
      = max (frames + i.content.frames) (deepest .plain frames s))
    (hblank : ∀ i ∈ items, Blank i.gap ∧ Blank i.lead) {separator : List Char}
    (hseparator : ∀ c ∈ separator, isFlat c = true) (frames : Nat) (s : List Char) :
    deepest .plain frames (renderItems separator items ++ s)
      = max (frames + framesOfItems items) (deepest .plain frames s) := by
  induction items generalizing separator s with
  | nil => exact (Nat.max_eq_right (le_deepest .plain frames s)).symm
  | cons i rest ih =>
    obtain ⟨gap, lead, p⟩ := i
    rw [List.forall_mem_cons] at h hblank
    have hflat : ∀ c ∈ gap ++ separator ++ lead, isFlat c = true := by
      rw [List.forall_mem_append, List.forall_mem_append]
      exact ⟨⟨isFlat_of_blank hblank.1.1, hseparator⟩, isFlat_of_blank hblank.1.2⟩
    rw [renderItems, List.append_assoc, List.append_assoc, deepest_flat hflat, h.1,
      ih h.2 hblank.2 (List.forall_mem_singleton.mpr rfl), framesOfItems]
    simp only
    omega

/-- **The brackets of a phrase take as many frames as it does.** -/
theorem deepest_render {p : Phrase} (h : p.Shaped) (frames : Nat) (s : List Char) :
    deepest .plain frames (p.render ++ s) = max (frames + p.frames) (deepest .plain frames s) := by
  induction p generalizing frames s with
  | word name =>
    cases h with
    | word h =>
      have hflat : ∀ n ∈ ["true", "false", "null"], n.toList.all isFlat = true := List.all_iff_forall_prop.mp rfl
      exact (deepest_flat (List.all_eq_true.mp (hflat name h)) frames s).trans (Nat.max_eq_right (le_deepest .plain frames s)).symm
  | string body =>
    cases h with
    | string h =>
      rw [render, List.cons_append, deepest, if_pos rfl, deepest_quoted h]
      exact (Nat.max_eq_right (le_deepest .plain frames s)).symm
  | number digits =>
    exact (deepest_flat (fun c hc => isFlat_of_isNumberChar (Grammar.isNumberChar_of_mem h c hc)) frames s).trans
      (Nat.max_eq_right (le_deepest .plain frames s)).symm
  | member key before after content ih =>
    cases h with
    | member hkey hbefore hafter _ h =>
      rw [render, Phrase.frames, ← ih h frames s]
      simp only [List.append_assoc, List.cons_append]
      rw [deepest, if_pos rfl, deepest_quoted hkey, deepest_flat (isFlat_of_blank hbefore)]
      exact deepest_flat (a := ':' :: after)
        (List.forall_mem_cons.mpr ⟨rfl, isFlat_of_blank hafter⟩) frames _
  | group bracket items trail ih =>
    cases h with
    | group htrail _ hblank _ h =>
      have hitems := deepest_renderItems (fun i hi => ih i hi (h i hi)) hblank
        (List.forall_mem_nil (isFlat · = true)) (frames + bracket.frames) (trail ++ bracket.closing :: s)
      have hclose : deepest .plain (frames + bracket.frames) (trail ++ bracket.closing :: s)
          = max (frames + bracket.frames) (deepest .plain frames s) := by
        rw [deepest_flat (isFlat_of_blank htrail)]
        cases bracket <;> rfl
      have hopen : deepest .plain frames ((Phrase.group bracket items trail).render ++ s)
          = deepest .plain (frames + bracket.frames) (renderItems [] items ++ (trail ++ bracket.closing :: s)) := by
        rw [render]
        simp only [List.append_assoc, List.cons_append, List.nil_append]
        cases bracket <;> rfl
      rw [hopen, hitems, hclose, Phrase.frames]
      omega

theorem nesting_text {w : Whole} (h : w.Shaped) : nesting w.text = w.phrase.frames := by
  have hmark : ∀ c ∈ w.mark, isFlat c = true := by
    rcases h.mark with hmark | hmark <;> rw [hmark]
    · exact fun c hc => nomatch hc
    · exact List.forall_mem_singleton.mpr rfl
  rw [nesting, Whole.text, deepest_flat hmark, deepest_flat (isFlat_of_blank h.lead),
    deepest_render h.phrase, Nat.zero_add]
  have htrail := deepest_flat (isFlat_of_blank h.trail) 0 []
  rw [List.append_nil] at htrail
  rw [htrail]
  exact Nat.max_eq_left (Nat.zero_le _)

/-- A text with a tree does not nest too deep. -/
theorem nesting_le [Interpreter] {text : String} {root : Node} (h : ofText text = .ok root) :
    nesting text.toList ≤ treeFrames := by
  obtain ⟨w, hw, htext, -⟩ := ofText_eq_ok.mp h
  rw [htext, nesting_text hw.toShaped]
  exact hw.frames

/-- How many frames the lists take that are open at the hole of a place. -/
def Place.frames : Place → Nat
  | .here => 0
  | .inMember _ _ _ place => place.frames
  | .inGroup bracket _ _ _ place _ _ => place.frames + bracket.frames

theorem Place.frames_into (place q : Place) : (place.into q).frames = place.frames + q.frames := by
  induction place with
  | here => exact (Nat.zero_add _).symm
  | inMember key before after place ih => exact ih
  | inGroup bracket front gap lead place back trail ih =>
    rw [into, frames, frames, ih, Nat.add_right_comm]

/-- **How many frames the whole takes** at least, by what stands in a place. -/
theorem Place.frames_add_frames_le (place : Place) (p : Phrase) :
    place.frames + p.frames ≤ (place.fill p).frames := by
  induction place with
  | here => exact Nat.le_of_eq (Nat.zero_add _)
  | inMember key before after place ih => exact ih
  | inGroup bracket front gap lead place back trail ih =>
    have hitem := framesOfItems_le_iff.mp (Nat.le_refl (framesOfItems (front ++ ⟨gap, lead, place.fill p⟩ :: back)))
      _ (List.mem_append_right front List.mem_cons_self)
    rw [fill, Phrase.frames, frames, Nat.add_right_comm]
    exact Nat.add_le_add_right (ih.trans hitem) _

/-- What stands in a place takes no more frames than the whole. -/
theorem Place.frames_le_fill (place : Place) (p : Phrase) : p.frames ≤ (place.fill p).frames :=
  (Nat.le_add_left _ _).trans (place.frames_add_frames_le p)

/-- **How many frames the whole takes** at most, when something else is put in a place. -/
theorem Place.frames_fill_le {place : Place} {p q : Phrase} {n : Nat} (h : (place.fill p).frames ≤ n)
    (hq : place.frames + q.frames ≤ n) : (place.fill q).frames ≤ n := by
  induction place generalizing n with
  | here => exact (Nat.le_of_eq (Nat.zero_add _).symm).trans hq
  | inMember key before after place ih => exact ih h hq
  | inGroup bracket front gap lead place back trail ih =>
    rw [fill, Phrase.frames] at h ⊢
    rw [frames, Nat.add_right_comm] at hq
    obtain ⟨n, rfl⟩ := Nat.exists_eq_add_of_le' ((Nat.le_add_left _ _).trans h)
    rw [Nat.add_le_add_iff_right] at h hq ⊢
    have hitems := framesOfItems_le_iff.mp h
    rw [List.forall_mem_append, List.forall_mem_cons] at hitems
    refine framesOfItems_le_iff.mpr ?_
    rw [List.forall_mem_append, List.forall_mem_cons]
    exact ⟨hitems.1, ih hitems.2.1 hq, hitems.2.2⟩

/-- A text stays one of the grammar when another well-formed phrase of the kind is put in a place of it. -/
theorem Whole.Shaped.holding {w : Whole} (h : w.Shaped) {place : Place} {p q : Phrase}
    (hphrase : w.phrase = place.fill p) (hq : q.Shaped) (hkind : q.isMember = p.isMember) :
    (w.holding (place.fill q)).Shaped :=
  ⟨h.mark, h.lead, Place.shaped_fill (hphrase ▸ h.phrase) hq hkind,
    (Place.isMember_fill place hkind).trans (hphrase ▸ h.isValue), h.trail⟩

/-- **A text keeps having a tree** when another well-formed phrase of the kind is put in a place of
it, unless it then nests too deep. -/
theorem Whole.Sound.holding [Interpreter] {w : Whole} (h : w.Sound) {place : Place} {p q : Phrase}
    (hphrase : w.phrase = place.fill p) (hq : q.Shaped) (hread : q.Readable)
    (hkind : q.isMember = p.isMember) (hdepth : nesting (w.holding (place.fill q)).text ≤ treeFrames) :
    (w.holding (place.fill q)).Sound := by
  have hshaped := h.toShaped.holding hphrase hq hkind
  exact ⟨hshaped, Place.readable_fill _ (hphrase ▸ h.readable) hread, nesting_text hshaped ▸ hdepth⟩

end SlotEdit.Json
