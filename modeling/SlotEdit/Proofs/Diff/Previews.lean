import SlotEdit.Proofs.Diff.Patches
import SlotEdit.Proofs.Edit.Splicing

/-!
# Proofs/Diff/Previews — which previews are patches

A preview writes the lines of its hunks one behind the other, each as its text ends it, and has no note
for a last line without a line break.  Read line by line it gives its hunks back unless such a line is
taken away and others are put in its place: then the line and the first of these are one line of the
diff, and the hunk does not stand on the old text any more.  `patched_unifiedLines` says so for two
texts, `Editor.patched_preview` for what an editor previews and applies.
-/

namespace SlotEdit

namespace Diff

variable {α : Type}

/-! ## The lines of a diff -/

theorem not_isLineBreak_of_isAsciiDigit {c : Char} (h : isAsciiDigit c = true) : isLineBreak c = false := by
  rw [isAsciiDigit, decide_eq_true_eq, Char.le_def, Char.le_def, UInt32.le_iff_toNat_le, UInt32.le_iff_toNat_le] at h
  obtain ⟨hlow, hhigh⟩ : 48 ≤ c.toNat ∧ c.toNat ≤ 57 := h
  rw [isLineBreak, decide_eq_false_iff_not]
  omega

theorem not_isLineBreak_rangeText (start stop : Nat) : ∀ c ∈ (rangeText start stop).toList, isLineBreak c = false := by
  have hnumber (n : Nat) : ∀ c ∈ (toString n).toList, isLineBreak c = false := by
    rw [toList_toString]
    exact fun c hc => not_isLineBreak_of_isAsciiDigit (isAsciiDigit_natText hc)
  rw [rangeText]
  split
  · exact hnumber _
  · rw [String.toList_append, String.toList_append, List.forall_mem_append, List.forall_mem_append]
    exact ⟨⟨hnumber _, by simp [isLineBreak]⟩, hnumber _⟩

/-- **The header of a hunk is a line.** -/
theorem hunkHeader_eq {h : Hunk} (hne : h ≠ []) :
    ∃ front, (hunkHeader h).toList = '@' :: front ++ ['\n'] ∧ ∀ c ∈ '@' :: front, isLineBreak c = false := by
  obtain ⟨first, hfirst⟩ : ∃ first, h.head? = some first := ⟨_, List.head?_eq_some_head hne⟩
  obtain ⟨last, hlast⟩ : ∃ last, h.getLast? = some last := ⟨_, List.getLast?_eq_some_getLast hne⟩
  have hold := not_isLineBreak_rangeText first.window.oldStart last.window.oldStop
  have hnew := not_isLineBreak_rangeText first.window.newStart last.window.newStop
  rw [hunkHeader, hfirst, hlast]
  dsimp only
  generalize rangeText first.window.oldStart last.window.oldStop = old at *
  generalize rangeText first.window.newStart last.window.newStop = new at *
  refine ⟨"@ -".toList ++ old.toList ++ " +".toList ++ new.toList ++ " @@".toList, by simp, ?_⟩
  simp only [List.forall_mem_cons, List.forall_mem_append]
  exact ⟨rfl, ⟨⟨⟨by simp [isLineBreak], hold⟩, by simp [isLineBreak]⟩, hnew⟩, by simp [isLineBreak]⟩

/-- **A line of a diff**: it is cut nowhere inside, and not from the line before it either. -/
structure DiffLine (char : α → Char) (line : List α) : Prop where
  uncut : Uncut char line
  starts : ∀ a ∈ line.head?, char a ≠ '\n'

section

variable {letter : Char → α} {char : α → Char} (hletter : ∀ c, char (letter c) = c)

include hletter

theorem diffLine_of_plain {c : Char} {front : List Char} (hplain : ∀ d ∈ c :: front, isLineBreak d = false) :
    DiffLine char ((c :: front ++ ['\n']).map letter) ∧ endsInBreak char ((c :: front ++ ['\n']).map letter) = true := by
  refine ⟨⟨⟨by simp, ?_⟩, ?_⟩, ?_⟩
  · generalize c :: front = line at hplain
    induction line with
    | nil => exact List.isChain_singleton _
    | cons c line ih =>
      rw [List.forall_mem_cons] at hplain
      rw [List.cons_append, List.map_cons, List.isChain_cons]
      exact ⟨fun b _ => joined_of_isLineBreak ((hletter c).symm ▸ hplain.1) b, ih hplain.2⟩
  · rintro a ⟨⟩
    rw [hletter]
    rintro rfl
    exact absurd (hplain '\n' List.mem_cons_self) (by decide)
  · rw [endsInBreak, List.map_append, List.map_singleton, List.getLast?_concat, Option.any_some, hletter]
    rfl

theorem diffLine_headLines : ∀ l ∈ headLines letter, DiffLine char l ∧ endsInBreak char l = true := by
  have hbefore : "--- before\n".toList = '-' :: "-- before".toList ++ ['\n'] := by simp
  have hafter : "+++ after\n".toList = '+' :: "++ after".toList ++ ['\n'] := by simp
  rw [headLines, hbefore, hafter, List.forall_mem_cons, List.forall_mem_singleton]
  exact ⟨diffLine_of_plain hletter (by simp [isLineBreak]), diffLine_of_plain hletter (by simp [isLineBreak])⟩

theorem diffLine_hunkHeader {h : Hunk} (hne : h ≠ []) :
    DiffLine char ((hunkHeader h).toList.map letter) ∧ endsInBreak char ((hunkHeader h).toList.map letter) = true := by
  obtain ⟨front, heq, hplain⟩ := hunkHeader_eq hne
  rw [heq]
  exact diffLine_of_plain hletter hplain

/-- A line with its mark in front. -/
theorem diffLine_writeLine (mark : Mark) {l : List α} (h : Uncut char l) : DiffLine char (writeLine letter (mark, l)) := by
  refine ⟨⟨List.cons_ne_nil _ _, List.isChain_cons.mpr ⟨fun b _ => joined_of_isLineBreak ?_ b, h.joined⟩⟩, ?_⟩
  · rw [hletter]
    cases mark <;> rfl
  · rintro a ⟨⟩
    rw [hletter]
    cases mark <;> simp [Mark.char]

omit hletter in
theorem endsInBreak_writeLine (mark : Mark) {l : List α} (h : Uncut char l) :
    endsInBreak char (writeLine letter (mark, l)) = endsInBreak char l :=
  endsInBreak_append [letter mark.char] h.ne_nil

/-! ## Diffs are read line by line -/

variable (letter) in
/-- A diff line by line, each hunk with some lines for its own. -/
def diffLines (hunks : List (Hunk × List (Mark × List α))) : List (List α) :=
  headLines letter ++ hunks.flatMap fun h => hunkLines letter h.1 h.2

/-- **Hunks whose lines are lines of a text.** -/
structure Readable (char : α → Char) (hunks : List (Hunk × List (Mark × List α))) : Prop where
  header : ∀ h ∈ hunks, h.1 ≠ [] ∧ readHeader? (hunkHeader h.1).toList = some (headerOf h.1)
  uncut : ∀ h ∈ hunks, ∀ line ∈ h.2, Uncut char line.2
  front : ∀ h ∈ hunks.dropLast, ∀ line ∈ h.2, endsInBreak char line.2 = true
  last : ∀ h ∈ hunks.getLast?, Broken char (h.2.map Prod.snd)

theorem diffLine_of_mem {hunks : List (Hunk × List (Mark × List α))} (h : Readable char hunks) :
    ∀ l ∈ diffLines letter hunks, DiffLine char l := by
  refine List.forall_mem_append.mpr ⟨fun l hl => (diffLine_headLines hletter l hl).1, fun l hl => ?_⟩
  obtain ⟨hunk, hhunk, hl⟩ := List.mem_flatMap.mp hl
  rcases List.mem_cons.mp hl with rfl | hl
  · exact (diffLine_hunkHeader hletter (h.header hunk hhunk).1).1
  · obtain ⟨line, hline, rfl⟩ := List.mem_map.mp hl
    exact diffLine_writeLine hletter line.1 (h.uncut hunk hhunk line hline)

omit hletter in
theorem broken_writeLine {body : List (Mark × List α)} (huncut : ∀ line ∈ body, Uncut char line.2)
    (h : Broken char (body.map Prod.snd)) : Broken char (body.map (writeLine letter)) := by
  rw [Broken, ← List.map_dropLast] at h ⊢
  refine List.forall_mem_map.mpr fun line hline => ?_
  rw [← h _ (List.mem_map_of_mem hline)]
  exact endsInBreak_writeLine line.1 (huncut line (List.dropLast_subset body hline))

theorem broken_diffLines {hunks : List (Hunk × List (Mark × List α))} (h : Readable char hunks) :
    Broken char (diffLines letter hunks) := by
  rcases List.eq_nil_or_concat hunks with rfl | ⟨front, last, rfl⟩
  · rw [diffLines, List.flatMap_nil]
    exact .behind (fun l hl => (diffLine_headLines hletter l hl).2) nofun
  · rw [List.concat_eq_append] at h ⊢
    have hfront := h.front
    rw [List.dropLast_concat] at hfront
    rw [diffLines, List.flatMap_append, List.flatMap_singleton, ← List.append_assoc, hunkLines]
    refine .behind ?_ ((broken_writeLine (h.uncut last (by simp)) (h.last last List.getLast?_concat)).cons
      (diffLine_hunkHeader hletter (h.header last (by simp)).1).2)
    refine List.forall_mem_append.mpr ⟨fun l hl => (diffLine_headLines hletter l hl).2, fun l hl => ?_⟩
    obtain ⟨hunk, hhunk, hl⟩ := List.mem_flatMap.mp hl
    have hmem : hunk ∈ front ++ [last] := List.mem_append_left _ hhunk
    rcases List.mem_cons.mp hl with rfl | hl
    · exact (diffLine_hunkHeader hletter (h.header hunk hmem).1).2
    · obtain ⟨line, hline, rfl⟩ := List.mem_map.mp hl
      rw [endsInBreak_writeLine line.1 (h.uncut hunk hmem line hline)]
      exact hfront hunk hhunk line hline

/-- **A diff is read back** as it is written. -/
theorem readPatch_diffLines {hunks : List (Hunk × List (Mark × List α))} (h : Readable char hunks) :
    readPatch char (splitLines char (diffLines letter hunks).flatten) =
      some (hunks.map fun h => ⟨headerOf h.1, h.2⟩) := by
  have hlines := diffLine_of_mem hletter h
  rw [splitLines_flatten (fun l hl => (hlines l hl).uncut) (broken_diffLines hletter h) fun l hl => (hlines l hl).starts,
    diffLines, headLines, List.cons_append, List.cons_append, List.nil_append, readPatch, map_char_map_letter hletter,
    map_char_map_letter hletter, if_pos (by decide), readHunks_written hletter fun g hg => (h.header g hg).2]
  rfl

theorem patched_diffLines [BEq α] {hunks : List (Hunk × List (Mark × List α))} (h : Readable char hunks) (old : List α) :
    patched char old (diffLines letter hunks).flatten =
      (applyFrom (splitLines char old) 0 0 (hunks.map fun h => ⟨headerOf h.1, h.2⟩)).map List.flatten := by
  rw [patched, readPatch_diffLines hletter h]
  exact Option.map_eq_bind.symm

end

/-! ## The hunks of two texts as lines -/

section

variable {char : α → Char} {old new : List (List α)} {i j : Nat} {hs : List Hunk} {h : Hunk} {c : Change}

theorem AllIn.of_mem {P : α → Prop} {lines : List α} {start stop : Nat} (h : AllIn P lines start stop) :
    ∀ a ∈ sliceList lines start stop, P a := by
  intro a ha
  obtain ⟨d, hd⟩ := List.mem_iff_getElem?.mp ha
  rw [sliceList, List.getElem?_take] at hd
  split at hd
  · rw [List.getElem?_drop] at hd
    exact h (start + d) (by omega) (by omega) a hd
  · cases hd

theorem allIn_of_broken {lines : List (List α)} (h : Broken char lines) :
    AllIn (endsInBreak char ·) lines 0 (lines.length - 1) := by
  intro d _ hd l hl
  refine h l (List.mem_iff_getElem?.mpr ⟨d, ?_⟩)
  rw [List.getElem?_dropLast, if_pos hd, hl]

theorem mem_of_mem_sliceList {a : α} {lines : List α} {start stop : Nat} (h : a ∈ sliceList lines start stop) :
    a ∈ lines :=
  List.mem_of_mem_drop (List.mem_of_mem_take h)

theorem broken_sliceList {lines : List (List α)} (h : Broken char lines) (start stop : Nat) :
    Broken char (sliceList lines start stop) := by
  have hparts : lines.take start ++ sliceList lines start stop ++ (lines.drop start).drop (stop - start) = lines := by
    rw [sliceList, List.append_assoc, List.take_append_drop, List.take_append_drop]
  exact Broken.infix (hparts.symm ▸ h)

theorem map_snd_body (c : Change) : (c.body old new).map Prod.snd =
    sliceList old c.window.oldStart c.window.oldStop ++
      if c.kind = .equal then [] else sliceList new c.window.newStart c.window.newStop := by
  obtain ⟨kind, w⟩ := c
  cases kind <;> simp [Change.body, List.map_append, List.map_map, Function.comp_def]

theorem body_of_replace (hkind : c.kind = .replace) : c.body old new =
    (sliceList old c.window.oldStart c.window.oldStop).map (Mark.removed, ·) ++
      (sliceList new c.window.newStart c.window.newStop).map (Mark.added, ·) := by
  rw [Change.body, hkind]

/-- The lines of a change are lines of its window. -/
theorem of_mem_body {line : Mark × List α} (hline : line ∈ c.body old new) :
    line.2 ∈ sliceList old c.window.oldStart c.window.oldStop ∨
      line.2 ∈ sliceList new c.window.newStart c.window.newStop := by
  have hmem := List.mem_map_of_mem (f := Prod.snd) hline
  rw [map_snd_body] at hmem
  refine (List.mem_append.mp hmem).imp_right fun hnew => ?_
  split at hnew
  · cases hnew
  · exact hnew

theorem uncut_of_mem_body (hold : ∀ l ∈ old, Uncut char l) (hnew : ∀ l ∈ new, Uncut char l) (c : Change) :
    ∀ line ∈ c.body old new, Uncut char line.2 := fun _ hline =>
  (of_mem_body hline).elim (fun h => hold _ (mem_of_mem_sliceList h)) fun h => hnew _ (mem_of_mem_sliceList h)

/-- **The last change** has one line without a line break, at its end, if what it replaces has none. -/
theorem broken_body (hold : Broken char old) (hnew : Broken char new) (hc : c.Holds old new)
    (hreplace : c.kind = .replace → AllIn (endsInBreak char ·) old c.window.oldStart c.window.oldStop) :
    Broken char ((c.body old new).map Prod.snd) := by
  have hold := broken_sliceList hold c.window.oldStart c.window.oldStop
  have hnew := broken_sliceList hnew c.window.newStart c.window.newStop
  rw [map_snd_body]
  cases hkind : c.kind with
  | equal => rwa [if_pos rfl, List.append_nil]
  | replace => exact .behind (hreplace hkind).of_mem (by rwa [if_neg (by decide)])
  | delete =>
    rw [if_neg (by decide), hc.delete hkind, sliceList_self, List.append_nil]
    exact hold
  | insert =>
    rw [if_neg (by decide), hc.insert hkind, sliceList_self, List.nil_append]
    exact hnew

/-- Every hunk covers a part of either side. -/
theorem Hunked.covers (h : Hunked old new i j hs) :
    ∀ g ∈ hs, g ≠ [] ∧ ∃ i j i' j', Covers old new i j i' j' g := by
  induction hs generalizing i j with
  | nil => nofun
  | cons g hs ih =>
    obtain ⟨hne, k, i', j', -, hcovers, hrest⟩ := h
    exact List.forall_mem_cons.mpr ⟨⟨hne, _, _, _, _, hcovers⟩, ih hrest⟩

/-- A hunk with the lines of its changes. -/
def withBody (old new : List (List α)) (h : Hunk) : Hunk × List (Mark × List α) := (h, h.flatMap (Change.body old new))

theorem unifiedLines_eq [BEq α] (letter : Char → α) (n : Nat) (old new : List (List α)) :
    unifiedLines letter n old new =
      if hunks n old new = [] then [] else (diffLines letter ((hunks n old new).map (withBody old new))).flatten := by
  rw [unifiedLines]
  split
  · next hnil => rw [if_pos hnil]
  · next hne =>
    rw [if_neg hne, diffLines, List.flatten_append, List.flatMap_map, List.flatMap_def, List.flatMap_def,
      List.flatten_flatten, List.map_map, funext (writeHunk_eq letter old new)]
    rfl

/-- **Hunks are readable** if all lines in front of the last change end in line breaks, whatever lines the
last change has, when all but the last of these do. -/
theorem readable_concat (hold : ∀ l ∈ old, Uncut char l) (hnew : ∀ l ∈ new, Uncut char l)
    (hhunked : Hunked old new i j (hs ++ [h ++ [c]]))
    (hall : ∀ d ∈ hs.flatten ++ h, d.All (endsInBreak char ·) old new) {body : List (Mark × List α)}
    (huncut : ∀ line ∈ body, Uncut char line.2) (hbroken : Broken char (body.map Prod.snd)) :
    Readable char (hs.map (withBody old new) ++ [(h ++ [c], h.flatMap (Change.body old new) ++ body)]) := by
  have hlines := uncut_of_mem_body hold hnew
  have hbreaks : ∀ d ∈ hs.flatten ++ h, ∀ line ∈ d.body old new, endsInBreak char line.2 = true := fun d hd line hline =>
    (of_mem_body hline).elim ((hall d hd).1.of_mem _) ((hall d hd).2.of_mem _)
  have hheaders : ∀ g ∈ hs ++ [h ++ [c]], g ≠ [] ∧ readHeader? (hunkHeader g).toList = some (headerOf g) := by
    intro g hg
    obtain ⟨hne, i, j, i', j', hcovers⟩ := hhunked.covers g hg
    exact ⟨hne, hcovers.readHeader? hne⟩
  rw [List.forall_mem_append, List.forall_mem_singleton] at hheaders
  refine ⟨?_, ?_, ?_, ?_⟩
  · exact List.forall_mem_append.mpr
      ⟨List.forall_mem_map.mpr hheaders.1, List.forall_mem_singleton.mpr hheaders.2⟩
  · refine List.forall_mem_append.mpr ⟨List.forall_mem_map.mpr fun g _ line hline => ?_, List.forall_mem_singleton.mpr ?_⟩
    · obtain ⟨d, -, hline⟩ := List.mem_flatMap.mp hline
      exact hlines d line hline
    · refine List.forall_mem_append.mpr ⟨fun line hline => ?_, huncut⟩
      obtain ⟨d, -, hline⟩ := List.mem_flatMap.mp hline
      exact hlines d line hline
  · rw [List.dropLast_concat]
    refine List.forall_mem_map.mpr fun g hg line hline => ?_
    obtain ⟨d, hd, hline⟩ := List.mem_flatMap.mp hline
    exact hbreaks d (List.mem_append_left _ (List.mem_flatten_of_mem hg hd)) line hline
  · rw [List.getLast?_concat]
    rintro g ⟨⟩
    rw [List.map_append]
    refine .behind (List.forall_mem_map.mpr fun line hline => ?_) hbroken
    obtain ⟨d, hd, hline⟩ := List.mem_flatMap.mp hline
    exact hbreaks d (List.mem_append_right _ hd) line hline

end

/-! ## Which diffs are patches -/

/-- A line that is taken away and one that is put in its place are written as one line if no line break
is between them. -/
theorem flatten_diffLines_glued (letter : Char → α) (front : List (Hunk × List (Mark × List α))) (h : Hunk)
    (lines behind : List (Mark × List α)) (l m : List α) :
    (diffLines letter (front ++ [(h, lines ++ (Mark.removed, l) :: (Mark.added, m) :: behind)])).flatten =
      (diffLines letter (front ++ [(h, lines ++ (Mark.removed, l ++ writeLine letter (Mark.added, m)) :: behind)])).flatten := by
  simp [diffLines, hunkLines, writeLine]

/-- The old side of a hunk, up to the last line that is taken away. -/
theorem oldLines_concat (header : HunkHeader) (lines : List (Mark × List α)) (l : List α) (added : List (List α)) :
    (⟨header, lines ++ (Mark.removed, l) :: added.map (Mark.added, ·)⟩ : PatchHunk α).oldLines =
      (⟨header, lines⟩ : PatchHunk α).oldLines ++ [l] := by
  simp [PatchHunk.oldLines, List.filterMap_map]

section

variable {char : α → Char} {old new : List (List α)} {c : Change}

/-- **The change that puts new lines in the place of the last old ones.** -/
theorem body_of_last (hc : c.Holds old new) (hkind : c.kind = .replace) (holdStop : c.window.oldStop = old.length)
    (hnewStop : c.window.newStop = new.length) : ∃ front lines l front' m behind,
      old = front ++ lines ++ [l] ∧ new = front' ++ m :: behind ∧
        c.body old new = lines.map (Mark.removed, ·) ++ (Mark.removed, l) :: (Mark.added, m) :: behind.map (Mark.added, ·) := by
  obtain ⟨holdLt, hnewLt⟩ := hc.replace hkind
  rw [holdStop] at holdLt
  rw [hnewStop] at hnewLt
  obtain ⟨lines, l, hold⟩ : ∃ lines l, old.drop c.window.oldStart = lines ++ [l] :=
    ⟨_, _, (List.dropLast_concat_getLast (by rwa [Ne, List.drop_eq_nil_iff, Nat.not_le])).symm⟩
  obtain ⟨m, behind, hnew⟩ : ∃ m behind, new.drop c.window.newStart = m :: behind :=
    List.exists_cons_of_ne_nil (by rwa [Ne, List.drop_eq_nil_iff, Nat.not_le])
  refine ⟨old.take c.window.oldStart, lines, l, new.take c.window.newStart, m, behind, ?_, ?_, ?_⟩
  · rw [List.append_assoc, ← hold, List.take_append_drop]
  · rw [← hnew, List.take_append_drop]
  · rw [body_of_replace hkind, holdStop, hnewStop, sliceList_length, sliceList_length, hold, hnew]
    simp

/-- The lines of that change when the last old one and the first new one are one. -/
theorem broken_glued {letter : Char → α} {front lines front' behind : List (List α)} {l m : List α}
    (hold : Broken char (front ++ lines ++ [l])) (hnew : Broken char (front' ++ m :: behind)) (hm : Uncut char m) :
    Broken char ((lines.map (Mark.removed, ·) ++
      (Mark.removed, l ++ writeLine letter (Mark.added, m)) :: behind.map (Mark.added, ·)).map Prod.snd) := by
  rw [Broken, List.dropLast_concat, List.forall_mem_append] at hold
  rw [List.map_append, List.map_map, List.map_cons, List.map_map]
  refine .behind (by simpa using hold.2) ?_
  rw [show Prod.snd ∘ (fun x : List α => (Mark.added, x)) = id from rfl, List.map_id]
  cases behind with
  | nil => exact fun _ => (absurd · List.not_mem_nil)
  | cons b behind =>
    rw [Broken, List.dropLast_append_cons, List.forall_mem_append, List.dropLast_cons_cons, List.forall_mem_cons] at hnew
    rw [Broken, List.dropLast_cons_cons, List.forall_mem_cons]
    refine ⟨?_, hnew.2.2⟩
    dsimp only
    rw [endsInBreak_append l (m := writeLine letter (Mark.added, m)) (List.cons_ne_nil _ _), endsInBreak_writeLine _ hm]
    exact hnew.2.1

end

section

variable [BEq α]

/-- Hunks of which the last does not stand on the old side are not applied. -/
theorem applyFrom_concat {old : List (List α)} {i j : Nat} (front : List (PatchHunk α)) {last : PatchHunk α}
    (hlast : (sliceList old last.header.oldStart (last.header.oldStart + last.header.oldCount) == last.oldLines) = false) :
    applyFrom old i j (front ++ [last]) = none := by
  induction front generalizing i j with
  | nil => exact if_neg fun h => Bool.false_ne_true (hlast.symm.trans h.2.2.2.2)
  | cons g front ih =>
    rw [List.cons_append, applyFrom, ih]
    exact ite_self none

variable [LawfulBEq α] {letter : Char → α} {char : α → Char}

/-- A hunk in which the last old line goes on does not stand on the old side. -/
theorem applyFrom_glued {old new lines behind : List (List α)} {i j i' j' i'' j'' : Nat} {h : Hunk} {c : Change}
    {l m rest : List α} (hcovers : Covers old new i j i' j' (h ++ [c]))
    (hbody : c.body old new = lines.map (Mark.removed, ·) ++ (Mark.removed, l) :: (Mark.added, m) :: behind.map (Mark.added, ·))
    (hrest : rest ≠ []) (front : List (PatchHunk α)) :
    applyFrom old i'' j'' (front ++ [⟨headerOf (h ++ [c]),
      h.flatMap (Change.body old new) ++ (lines.map (Mark.removed, ·) ++ (Mark.removed, l ++ rest) :: behind.map (Mark.added, ·))⟩]) =
        none := by
  refine applyFrom_concat front ?_
  have hne : h ++ [c] ≠ [] := List.append_ne_nil_of_right_ne_nil h (List.cons_ne_nil c [])
  have hlines : (patchOf old new (h ++ [c])).oldLines =
      (⟨headerOf (h ++ [c]), h.flatMap (Change.body old new) ++ lines.map (Mark.removed, ·)⟩ : PatchHunk α).oldLines ++ [l] := by
    rw [patchOf, List.flatMap_append, List.flatMap_singleton, hbody, ← List.append_assoc]
    exact oldLines_concat _ _ l (m :: behind)
  rw [hcovers.headerOf_eq hne] at hlines ⊢
  dsimp only
  rw [Nat.add_sub_cancel' hcovers.le.1, ← hcovers.lines.1, hlines, ← List.append_assoc, oldLines_concat, beq_eq_false_iff_ne]
  intro heq
  have hlast := List.singleton_inj.mp (List.append_cancel_left heq)
  exact hrest (List.self_eq_append_right.mp hlast)

omit [LawfulBEq α] in
/-- **A line of the old text without a line break is written together with one of the new text**: the
last change takes the last line away and puts others in its place. -/
def gluesLines (char : α → Char) (old new : List α) : Bool :=
  (changes (splitLines char old) (splitLines char new)).getLast?.any (·.kind = .replace) && !endsInBreak char old

variable (hletter : ∀ c, char (letter c) = c)

include hletter

/-- **A diff without such a line is a patch** from the old text to the new one. -/
theorem patched_of_settled {old new : List α} (n : Nat)
    (h : Settled (endsInBreak char ·) (endsInBreak char ·) (splitLines char old) (splitLines char new)
      (changes (splitLines char old) (splitLines char new))) :
    patched char old (unifiedLines letter n (splitLines char old) (splitLines char new)) = some new := by
  obtain ⟨holdUncut, hold⟩ := broken_splitLines char old
  obtain ⟨hnewUncut, hnew⟩ := broken_splitLines char new
  have hhunked := hunked_hunks n (splitLines char old) (splitLines char new)
  have hsettled := settled_hunks n h
  have happlied := (congrArg (Option.map List.flatten) (applyFrom_patchOf hhunked)).trans
    (congrArg some (flatten_splitLines char new))
  rw [unifiedLines_eq]
  generalize hunks n (splitLines char old) (splitLines char new) = hs at *
  rcases List.eq_nil_or_concat hs with rfl | ⟨front, last, rfl⟩
  · exact (Option.map_eq_bind.symm.trans happlied)
  · rw [List.concat_eq_append] at *
    obtain ⟨hne, -⟩ := hhunked.covers last (by simp)
    obtain ⟨h, c, rfl⟩ := (List.eq_nil_or_concat last).resolve_left hne
    rw [List.concat_eq_append] at *
    obtain ⟨-, i, j, i', j', hcovers⟩ := hhunked.covers (h ++ [c]) (by simp)
    have hbody := broken_body hold hnew (hcovers.holds c (by simp)) (hsettled.replace c (by simp))
    have hall := hsettled.all
    rw [List.flatten_append, List.flatten_singleton, ← List.append_assoc, List.dropLast_concat] at hall
    have hreadable := readable_concat holdUncut hnewUncut hhunked hall
      (uncut_of_mem_body holdUncut hnewUncut c) hbody
    have hbodies : (front ++ [h ++ [c]]).map (withBody (splitLines char old) (splitLines char new)) =
        front.map (withBody (splitLines char old) (splitLines char new)) ++
          [(h ++ [c], h.flatMap (Change.body (splitLines char old) (splitLines char new)) ++
            c.body (splitLines char old) (splitLines char new))] := by
      rw [List.map_append, List.map_singleton, withBody, List.flatMap_append, List.flatMap_singleton]
    rw [if_neg (by simp), hbodies, patched_diffLines hletter hreadable, ← hbodies, List.map_map]
    exact happlied

/-- **A diff with such a line is no patch**: the last hunk has a line that the old text has not. -/
theorem patched_of_gluesLines {old new : List α} (n : Nat) (h : gluesLines char old new = true) :
    patched char old (unifiedLines letter n (splitLines char old) (splitLines char new)) = none := by
  obtain ⟨holdUncut, hold⟩ := broken_splitLines char old
  obtain ⟨hnewUncut, hnew⟩ := broken_splitLines char new
  obtain ⟨hreplace, hopen⟩ := Bool.and_eq_true_iff.mp h
  obtain ⟨c, hlast, hkind⟩ := (Option.any_eq_true _ _).mp hreplace
  rw [decide_eq_true_eq] at hkind
  rw [Bool.not_eq_true'] at hopen
  have hchanges := covers_changes (splitLines char old) (splitLines char new)
  have hhunked := hunked_hunks n (splitLines char old) (splitLines char new)
  have hall := (settled_hunks n (settled_changes (Q := fun _ => True) (fun _ _ => trivial) (allIn_of_broken hold)
    (allIn_of_broken hnew) fun _ _ _ _ _ _ _ _ => trivial)).all
  obtain ⟨hs, h, hhunks⟩ := hunks_concat n (by rw [hkind]; decide) hlast
  -- the last line of the old side, and the first one that is put in its place
  obtain ⟨-, last, -, hlast', -, -, holdStop, hnewStop⟩ := hchanges.ends (List.ne_nil_of_mem (List.mem_of_getLast? hlast))
  obtain rfl := Option.some.inj (hlast'.symm.trans hlast)
  obtain ⟨front, lines, l, front', m, behind, holdLines, hnewLines, hbody⟩ :=
    body_of_last (hchanges.holds last (List.mem_of_getLast? hlast)) hkind holdStop hnewStop
  have hl : endsInBreak char l = false :=
    (endsInBreak_of_getLast? (by rw [holdLines, List.getLast?_concat])).trans hopen
  have huncut := uncut_of_mem_body holdUncut hnewUncut last
  rw [hbody, List.forall_mem_append, List.forall_mem_cons, List.forall_mem_cons] at huncut
  obtain ⟨hlines, hlUncut, hm, hbehind⟩ := huncut
  have hglued : Uncut char (l ++ writeLine letter (Mark.added, m)) :=
    hlUncut.append hl (diffLine_writeLine hletter .added hm).uncut
  rw [hhunks] at hhunked hall
  rw [List.flatten_append, List.flatten_singleton, ← List.append_assoc, List.dropLast_concat] at hall
  have hreadable := readable_concat holdUncut hnewUncut hhunked hall
    (List.forall_mem_append.mpr ⟨hlines, List.forall_mem_cons.mpr ⟨hglued, hbehind⟩⟩)
    (broken_glued (holdLines ▸ hold) (hnewLines ▸ hnew) hm)
  obtain ⟨-, i, j, i', j', hcovers⟩ := hhunked.covers (h ++ [last]) (by simp)
  have hflatten := flatten_diffLines_glued letter (hs.map (withBody (splitLines char old) (splitLines char new)))
    (h ++ [last]) (h.flatMap (Change.body (splitLines char old) (splitLines char new)) ++ lines.map (Mark.removed, ·))
    (behind.map (Mark.added, ·)) l m
  rw [List.append_assoc, List.append_assoc, ← hbody] at hflatten
  rw [unifiedLines_eq, hhunks, if_neg (by simp), List.map_append, List.map_singleton, withBody, List.flatMap_append,
    List.flatMap_singleton, hflatten, patched_diffLines hletter hreadable, List.map_append, List.map_singleton]
  exact congrArg (Option.map List.flatten) (applyFrom_glued hcovers hbody (List.cons_ne_nil _ _) _)

/-- **The diff of two texts is a patch** from one to the other unless it writes a line of the old text
together with one of the new text; then it is none. -/
theorem patched_unifiedLines (n : Nat) (old new : List α) :
    patched char old (unifiedLines letter n (splitLines char old) (splitLines char new)) =
      if gluesLines char old new then none else some new := by
  split
  · next hglues => exact patched_of_gluesLines hletter n hglues
  · next hglues =>
    have hold := allIn_of_broken (broken_splitLines char old).2
    have hnew := allIn_of_broken (broken_splitLines char new).2
    refine patched_of_settled hletter n (settled_changes (fun _ h => h) hold hnew fun c hlast hkind => ?_)
    -- the old text ends in a line break, and so do all its lines
    have hends : endsInBreak char old = true := by
      rw [gluesLines, Option.mem_def.mp hlast, Option.any_some, hkind, decide_eq_true rfl, Bool.true_and,
        Bool.not_eq_true', Bool.not_eq_false] at hglues
      exact hglues
    intro i _ hi l hl
    have hlt := Nat.lt_of_lt_of_le hi ((covers_changes _ _).holds c (List.mem_of_getLast? hlast)).oldStop
    rcases Nat.lt_or_ge i ((splitLines char old).length - 1) with hfront | hend
    · exact hold i (Nat.zero_le i) hfront l hl
    · refine (endsInBreak_of_getLast? ?_).trans hends
      rw [List.getLast?_eq_getElem?, ← hl]
      congr 1
      omega

end

end Diff

namespace Editor

variable {ω : Type}

/-- **What an editor previews is a patch for what it applies**: read line by line and applied to the
document it gives the text of the new document.  Only where the last change puts lines in the place of a
last line without a line break it cannot be applied; this is so for texts in which halves of surrogate
pairs may stand too. -/
theorem patched_preview (e : Editor ω) (n : Nat) :
    (∀ e' done, e.apply = .ok (e', done) → ∃ diff, e.preview n = .ok diff ∧
      Diff.patched id e.document.content.toList diff.toList =
        if Diff.gluesLines id e.document.content.toList e'.document.content.toList then none
        else some e'.document.content.toList) ∧
    ∀ content, e.editedText = .ok content → ∃ diff, e.previewText n = .ok diff ∧
      Diff.patched Letter.shown (LooseText.ofString e.document.content).letters diff.letters =
        if Diff.gluesLines Letter.shown (LooseText.ofString e.document.content).letters content.letters then none
        else some content.letters := by
  constructor
  · intro e' done happly
    have hedited : e.edited = .ok e'.document.content := (edited_of_apply happly).1
    have hletter (c : Char) : id (id c) = c := rfl
    refine ⟨_, congrArg (Except.map _) hedited, ?_⟩
    rw [Diff.unified, String.toList_ofList]
    exact Diff.patched_unifiedLines hletter n _ _
  · intro content hedited
    have hletter (c : Char) : Letter.shown (Letter.char c) = c := rfl
    refine ⟨_, congrArg (Except.map _) hedited, ?_⟩
    dsimp only [Diff.unifiedText]
    exact Diff.patched_unifiedLines hletter n _ _

/-- Another letter in the place of the first one: in a text of one letter the preview cannot be applied,
in a line that ends in a line break it can. -/
theorem patched_preview_lastLine :
    let text (content : String) : Document := ⟨content, ⟨"Plain text", "plaintext", "plaintext", some .plainText⟩⟩
    let editor (content : String) : Editor Unit :=
      (ofDocument (text content)).add (.replace (.between ⟨0, 0⟩ ⟨0, 1⟩) (.str "b"))
    (∃ diff, (editor "a").preview 3 = .ok diff ∧ Diff.patched id "a".toList diff.toList = none) ∧
      (∃ diff, (editor "a\n").preview 3 = .ok diff ∧
        Diff.patched id "a\n".toList diff.toList = some "b\n".toList) ∧
      ∃ diff, (editor "a\n").previewText 3 = .ok diff ∧
        Diff.patched Letter.shown (LooseText.ofString "a\n").letters diff.letters =
          some (LooseText.ofString "b\n").letters := by
  intro text editor
  have hopen : (editor "a").apply = .ok (ofDocument (text "b"), ⟨1, []⟩) := by cbv
  have hbroken : (editor "a\n").apply = .ok (ofDocument (text "b\n"), ⟨1, []⟩) := by cbv
  have hloose : (editor "a\n").editedText = .ok (LooseText.ofString "b\n") := by cbv
  have hglues : Diff.gluesLines id (editor "a").document.content.toList (text "b").content.toList = true := by cbv
  have hapart : Diff.gluesLines id (editor "a\n").document.content.toList (text "b\n").content.toList = false := by cbv
  have hapart' : Diff.gluesLines Letter.shown (LooseText.ofString (editor "a\n").document.content).letters
      (LooseText.ofString "b\n").letters = false := by cbv
  obtain ⟨diff, hpreview, hpatched⟩ := (patched_preview (editor "a") 3).1 _ _ hopen
  obtain ⟨diff', hpreview', hpatched'⟩ := (patched_preview (editor "a\n") 3).1 _ _ hbroken
  obtain ⟨diff'', hpreview'', hpatched''⟩ := (patched_preview (editor "a\n") 3).2 _ hloose
  exact ⟨⟨diff, hpreview, hpatched.trans (if_pos hglues)⟩,
    ⟨diff', hpreview', hpatched'.trans (if_neg (Bool.eq_false_iff.mp hapart))⟩,
    diff'', hpreview'', hpatched''.trans (if_neg (Bool.eq_false_iff.mp hapart'))⟩

end Editor

end SlotEdit
