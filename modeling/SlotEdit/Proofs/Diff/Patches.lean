import SlotEdit.Edit.Editor
import SlotEdit.Proofs.Decimal.Digits
import SlotEdit.Proofs.Diff.Changes
import SlotEdit.Proofs.Results
import SlotEdit.Proofs.Text.Offsets
import SlotEdit.Proofs.Text.Splitting

/-!
# Proofs/Diff/Patches — hunks read back and applied

A patch is read line by line: two header lines, the headers of hunks, and lines with a mark in front
(`readPatch`).  Its hunks are applied to the lines of a text on which each has to stand where its header
says (`applyFrom`).  Hunks that are written are read back (`readHunks_written`), and the hunks of two
lists of lines turn one into the other (`applyFrom_patchOf`).
-/

namespace SlotEdit.Diff

variable {α : Type}

/-! ## Reading a patch -/

/-- What a line of a hunk is: on both sides, on the old one or on the new one. -/
inductive Mark
  | kept
  | removed
  | added
deriving DecidableEq, Repr

/-- The character that a mark is written as. -/
def Mark.char : Mark → Char
  | .kept => ' '
  | .removed => '-'
  | .added => '+'

/-- The mark that a character is read as. -/
def Mark.ofChar? (c : Char) : Option Mark := [.kept, .removed, .added].find? fun m => m.char = c

theorem Mark.ofChar?_char (mark : Mark) : Mark.ofChar? mark.char = some mark := by
  cases mark <;> rfl

/-- The lines of either side that a hunk stands on: how many are in front of them, and how many they
are. -/
structure HunkHeader where
  oldStart : Nat
  oldCount : Nat
  newStart : Nat
  newCount : Nat
deriving DecidableEq, Repr

/-- A hunk that has been read. -/
structure PatchHunk (α : Type) where
  header : HunkHeader
  lines : List (Mark × List α)

/-- Digits, and what follows. -/
def readNumber? (s : List Char) : Option (Nat × List Char) :=
  let digits := s.takeWhile isAsciiDigit
  if digits.isEmpty then none else some (digitsValue digits, s.dropWhile isAsciiDigit)

/-- The first line and the number of lines, which is one if it is left out: how many lines are in
front, how many there are, and what follows. -/
def readRange? (s : List Char) : Option ((Nat × Nat) × List Char) := do
  let (first, rest) ← readNumber? s
  match rest with
  | ',' :: rest => do
    let (count, rest) ← readNumber? rest
    pure ((if count = 0 then first else first - 1, count), rest)
  | _ => pure ((first - 1, 1), rest)

/-- The header of a hunk. -/
def readHeader? (line : List Char) : Option HunkHeader := do
  let s ← line.dropPrefix? "@@ -".toList
  let ((oldStart, oldCount), s) ← readRange? s
  let s ← s.dropPrefix? " +".toList
  let ((newStart, newCount), s) ← readRange? s
  if s = " @@\n".toList then pure ⟨oldStart, oldCount, newStart, newCount⟩ else none

section

variable (char : α → Char)

/-- Hunks line by line, and the lines in front of the first header. -/
def readHunks : List (List α) → Option (List (Mark × List α) × List (PatchHunk α))
  | [] => some ([], [])
  | line :: rest => do
    let (body, hunks) ← readHunks rest
    match line with
    | [] => none
    | a :: text =>
      match Mark.ofChar? (char a) with
      | some mark => pure ((mark, text) :: body, hunks)
      | none => do
        let header ← readHeader? (line.map char)
        pure ([], ⟨header, body⟩ :: hunks)

/-- **The hunks of a patch**: two header lines and hunks, or nothing. -/
def readPatch : List (List α) → Option (List (PatchHunk α))
  | [] => some []
  | before :: after :: rest =>
    if "--- ".toList.isPrefixOf (before.map char) && "+++ ".toList.isPrefixOf (after.map char) then do
      let (body, hunks) ← readHunks char rest
      if body.isEmpty then pure hunks else none
    else none
  | _ => none

end

namespace PatchHunk

/-- The lines of the old side. -/
def oldLines (h : PatchHunk α) : List (List α) :=
  h.lines.filterMap fun (mark, line) => if mark = .added then none else some line

/-- The lines of the new side. -/
def newLines (h : PatchHunk α) : List (List α) :=
  h.lines.filterMap fun (mark, line) => if mark = .removed then none else some line

end PatchHunk

section

variable [BEq α]

/-- **Hunks applied** to the lines of the old side from an offset on, when there are `j` lines of the new
side already.  Each has to stand where its header says, on the lines that it has of the old side. -/
def applyFrom (old : List (List α)) (i j : Nat) : List (PatchHunk α) → Option (List (List α))
  | [] => some (old.drop i)
  | h :: rest =>
    if i ≤ h.header.oldStart ∧ h.header.newStart = j + (h.header.oldStart - i) ∧
        h.oldLines.length = h.header.oldCount ∧ h.newLines.length = h.header.newCount ∧
        sliceList old h.header.oldStart (h.header.oldStart + h.header.oldCount) == h.oldLines then do
      let more ← applyFrom old (h.header.oldStart + h.header.oldCount) (h.header.newStart + h.header.newCount) rest
      pure (sliceList old i h.header.oldStart ++ h.newLines ++ more)
    else none

/-- **A text with a diff applied**, which is read line by line. -/
def patched (char : α → Char) (old diff : List α) : Option (List α) := do
  let hunks ← readPatch char (splitLines char diff)
  let lines ← applyFrom (splitLines char old) 0 0 hunks
  pure lines.flatten

end

/-! ## Headers are read as they are written -/

theorem toList_toString (n : Nat) : (toString n).toList = natText n := by
  rw [natText]
  exact Nat.toList_repr

theorem readNumber?_natText {n : Nat} {rest : List Char} (hrest : ∀ c ∈ rest.head?, isAsciiDigit c = false) :
    readNumber? (natText n ++ rest) = some (n, rest) := by
  have hdigits : ∀ c ∈ natText n, isAsciiDigit c = true := fun c hc => isAsciiDigit_natText hc
  obtain ⟨c, s, hcons, -⟩ := exists_natText n
  rw [readNumber?, takeWhile_run hdigits hrest, dropWhile_run hdigits hrest, digitsValue_natText, hcons]
  rfl

/-- **The lines that a header speaks of** are read back, up to a blank. -/
theorem readRange?_rangeText {start stop : Nat} (hle : start ≤ stop) (rest : List Char) :
    readRange? ((rangeText start stop).toList ++ ' ' :: rest) = some ((start, stop - start), ' ' :: rest) := by
  have hblank : ∀ c ∈ (' ' :: rest).head?, isAsciiDigit c = false := by
    rintro c ⟨⟩
    rfl
  rw [readRange?, rangeText]
  split
  · next hone =>
    rw [toList_toString, readNumber?_natText hblank, hone]
    rfl
  · next hmany =>
    have hcomma (s : List Char) : ∀ c ∈ (',' :: s).head?, isAsciiDigit c = false := by
      rintro c ⟨⟩
      rfl
    rw [String.toList_append, String.toList_append, toList_toString, toList_toString, List.append_assoc,
      List.append_assoc]
    change readNumber? (natText _ ++ ',' :: (natText _ ++ _)) >>= _ = _
    rw [readNumber?_natText (hcomma _)]
    change readNumber? (natText _ ++ ' ' :: rest) >>= _ = _
    rw [readNumber?_natText hblank]
    refine congrArg (fun first => some ((first, stop - start), ' ' :: rest)) ?_
    split <;> split <;> omega

/-- The lines that a hunk stands on. -/
def headerOf (h : Hunk) : HunkHeader :=
  match h.head?, h.getLast? with
  | some first, some last =>
    ⟨first.window.oldStart, last.window.oldStop - first.window.oldStart, first.window.newStart,
      last.window.newStop - first.window.newStart⟩
  | _, _ => ⟨0, 0, 0, 0⟩

variable {old new : List α} {i j i' j' : Nat}

theorem Covers.le {cs : List Change} (h : Covers old new i j i' j' cs) : i ≤ i' ∧ j ≤ j' := by
  induction cs generalizing i j with
  | nil => exact ⟨h.1.le, h.2.le⟩
  | cons c cs ih =>
    obtain ⟨rfl, rfl, hc, hcs⟩ := h
    exact ⟨hc.oldLe.trans (ih hcs).1, hc.newLe.trans (ih hcs).2⟩

/-- A hunk starts and stops where its changes do. -/
theorem Covers.ends {h : Hunk} (hcovers : Covers old new i j i' j' h) (hne : h ≠ []) :
    ∃ first last, h.head? = some first ∧ h.getLast? = some last ∧ first.window.oldStart = i ∧
      first.window.newStart = j ∧ last.window.oldStop = i' ∧ last.window.newStop = j' := by
  rcases List.eq_nil_or_concat h with rfl | ⟨front, last, rfl⟩
  · exact absurd rfl hne
  · rw [List.concat_eq_append] at hcovers ⊢
    obtain ⟨-, -, -, -, -, -, hold, hnew⟩ := hcovers.of_append
    cases front with
    | nil => exact ⟨last, last, rfl, rfl, hcovers.1, hcovers.2.1, hold, hnew⟩
    | cons first front => exact ⟨first, last, rfl, List.getLast?_concat, hcovers.1, hcovers.2.1, hold, hnew⟩

/-- A hunk stands on what its changes cover. -/
theorem Covers.headerOf_eq {h : Hunk} (hcovers : Covers old new i j i' j' h) (hne : h ≠ []) :
    headerOf h = ⟨i, i' - i, j, j' - j⟩ := by
  obtain ⟨first, last, hhead, hlast, rfl, rfl, rfl, rfl⟩ := hcovers.ends hne
  rw [headerOf, hhead, hlast]

/-- **The header of a hunk** is read back. -/
theorem Covers.readHeader? {h : Hunk} (hcovers : Covers old new i j i' j' h) (hne : h ≠ []) :
    Diff.readHeader? (hunkHeader h).toList = some (headerOf h) := by
  have hle := hcovers.le
  rw [hcovers.headerOf_eq hne]
  obtain ⟨first, last, hhead, hlast, rfl, rfl, rfl, rfl⟩ := hcovers.ends hne
  rw [hunkHeader, hhead, hlast]
  have hplus : " +".toList = [' ', '+'] := rfl
  have hend : " @@\n".toList = [' ', '@', '@', '\n'] := rfl
  simp only [String.toList_append, List.append_assoc]
  rw [Diff.readHeader?, List.dropPrefix?_append_of_beq _ (beq_self_eq_true _)]
  change (Diff.readRange? (_ ++ (" +".toList ++ _)) >>= _) = _
  rw [hplus, List.cons_append, readRange?_rangeText hle.1]
  change (List.dropPrefix? (" +".toList ++ _) " +".toList >>= _) = _
  rw [List.dropPrefix?_append_of_beq _ (beq_self_eq_true _), hend]
  change (Diff.readRange? _ >>= _) = _
  rw [readRange?_rangeText hle.2]
  rfl

/-! ## Hunks are read as they are written -/

/-- The lines of a change with their marks. -/
def Change.body (old new : List (List α)) (c : Change) : List (Mark × List α) :=
  match c.kind with
  | .equal => (sliceList old c.window.oldStart c.window.oldStop).map (.kept, ·)
  | _ => (sliceList old c.window.oldStart c.window.oldStop).map (.removed, ·) ++
      (sliceList new c.window.newStart c.window.newStop).map (.added, ·)

section

variable (letter : Char → α)

/-- A line with its mark in front. -/
def writeLine (line : Mark × List α) : List α := letter line.1.char :: line.2

/-- A hunk line by line, with some lines for its own. -/
def hunkLines (h : Hunk) (body : List (Mark × List α)) : List (List α) :=
  (hunkHeader h).toList.map letter :: body.map (writeLine letter)

/-- The two lines in front of all hunks. -/
def headLines : List (List α) := ["--- before\n".toList.map letter, "+++ after\n".toList.map letter]

theorem marked_eq (mark : Mark) (lines : List (List α)) (start stop : Nat) :
    marked (letter mark.char) lines start stop =
      (((sliceList lines start stop).map (mark, ·)).map (writeLine letter)).flatten := by
  rw [marked, List.map_map, List.flatMap_def]
  rfl

theorem write_eq (old new : List (List α)) (c : Change) :
    c.write letter old new = ((c.body old new).map (writeLine letter)).flatten := by
  obtain ⟨kind, w⟩ := c
  have hremoved := marked_eq letter .removed old w.oldStart w.oldStop
  have hadded := marked_eq letter .added new w.newStart w.newStop
  cases kind with
  | equal => exact marked_eq letter .kept old w.oldStart w.oldStop
  | replace => rw [Change.body, List.map_append, List.flatten_append, ← hremoved, ← hadded]; rfl
  | delete => rw [Change.body, List.map_append, List.flatten_append, ← hremoved, ← hadded]; rfl
  | insert => rw [Change.body, List.map_append, List.flatten_append, ← hremoved, ← hadded]; rfl

theorem writeHunk_eq (old new : List (List α)) (h : Hunk) :
    writeHunk letter old new h = (hunkLines letter h (h.flatMap (Change.body old new))).flatten := by
  rw [writeHunk, hunkLines, List.flatten_cons, List.map_flatMap, List.flatMap_def, List.flatMap_def, List.flatten_flatten,
    List.map_map, funext (write_eq letter old new)]
  rfl

variable {letter} {char : α → Char} (hletter : ∀ c, char (letter c) = c)

include hletter

theorem readHunks_body {rest : List (List α)} {behind : List (Mark × List α)} {hunks : List (PatchHunk α)}
    (body : List (Mark × List α)) (h : readHunks char rest = some (behind, hunks)) :
    readHunks char (body.map (writeLine letter) ++ rest) = some (body ++ behind, hunks) := by
  induction body with
  | nil => exact h
  | cons line body ih =>
    rw [List.map_cons, List.cons_append, readHunks, ih, writeLine]
    dsimp only [Option.bind_eq_bind, Option.bind_some]
    rw [hletter, Mark.ofChar?_char]
    rfl

omit hletter in
theorem starts_of_readHeader? {line : List Char} {header : HunkHeader} (h : readHeader? line = some header) :
    ∃ rest, line = '@' :: rest := by
  obtain ⟨s, hs, -⟩ := Option.bind_eq_some_iff.mp h
  obtain ⟨mark, rfl, hmark⟩ := List.dropPrefix?_eq_some_iff.mp hs
  obtain rfl := eq_of_beq hmark
  exact ⟨_, rfl⟩

theorem map_char_map_letter (s : List Char) : (s.map letter).map char = s := by
  rw [List.map_map, show char ∘ letter = id from funext hletter, List.map_id]

/-- **Hunks are read back**, whatever lines they are written with. -/
theorem readHunks_written {hunks : List (Hunk × List (Mark × List α))}
    (hheaders : ∀ h ∈ hunks, readHeader? (hunkHeader h.1).toList = some (headerOf h.1)) :
    readHunks char (hunks.flatMap fun h => hunkLines letter h.1 h.2) =
      some ([], hunks.map fun h => ⟨headerOf h.1, h.2⟩) := by
  induction hunks with
  | nil => rfl
  | cons h hunks ih =>
    obtain ⟨hheader, hheaders⟩ := List.forall_mem_cons.mp hheaders
    have hread := readHunks_body hletter h.2 (ih hheaders)
    obtain ⟨rest, hrest⟩ := starts_of_readHeader? hheader
    rw [List.flatMap_cons, hunkLines, List.cons_append, readHunks, hread]
    dsimp only [Option.bind_eq_bind, Option.bind_some]
    rw [map_char_map_letter hletter, hheader, hrest, List.map_cons]
    dsimp only
    rw [hletter, List.append_nil]
    rfl

end

/-! ## Hunks applied -/

/-- A hunk as it is read back. -/
def patchOf (old new : List (List α)) (h : Hunk) : PatchHunk α := ⟨headerOf h, h.flatMap (Change.body old new)⟩

theorem sliceList_eq_of_alike {k : Nat} (h : Alike old new i j k) :
    sliceList old i (i + k) = sliceList new j (j + k) := by
  refine List.ext_getElem? fun d => ?_
  rw [sliceList, sliceList, Nat.add_sub_cancel_left, Nat.add_sub_cancel_left, List.getElem?_take, List.getElem?_take]
  split
  · next hd =>
    obtain ⟨a, hold, hnew⟩ := h d hd
    rw [List.getElem?_drop, List.getElem?_drop, hold, hnew]
  · rfl

section

variable {old new : List (List α)}

/-- A change has the lines of its window on either side. -/
theorem Change.Holds.lines {c : Change} (h : c.Holds old new) :
    (c.body old new).filterMap (fun (mark, line) => if mark = .added then none else some line) =
        sliceList old c.window.oldStart c.window.oldStop ∧
      (c.body old new).filterMap (fun (mark, line) => if mark = .removed then none else some line) =
        sliceList new c.window.newStart c.window.newStop := by
  rw [Change.body]
  split
  · next hequal =>
    obtain ⟨k, hold, hnew, halike⟩ := h.equal hequal
    rw [hold, hnew, ← sliceList_eq_of_alike halike]
    simp [List.filterMap_map]
  · simp [List.filterMap_map]

/-- **A hunk has the lines that its changes cover** on either side. -/
theorem Covers.lines {h : Hunk} (hcovers : Covers old new i j i' j' h) :
    (patchOf old new h).oldLines = sliceList old i i' ∧ (patchOf old new h).newLines = sliceList new j j' := by
  rw [PatchHunk.oldLines, PatchHunk.newLines, patchOf]
  dsimp only
  induction h generalizing i j with
  | nil =>
    obtain ⟨rfl, rfl⟩ := hcovers
    rw [sliceList_self, sliceList_self]
    exact ⟨rfl, rfl⟩
  | cons c h ih =>
    obtain ⟨rfl, rfl, hc, hcovers⟩ := hcovers
    obtain ⟨hold, hnew⟩ := ih hcovers
    rw [List.flatMap_cons, List.filterMap_append, List.filterMap_append, hold, hnew, hc.lines.1, hc.lines.2,
      sliceList_append_sliceList old hc.oldLe hcovers.le.1, sliceList_append_sliceList new hc.newLe hcovers.le.2]
    exact ⟨rfl, rfl⟩

theorem Covers.stop_le {h : Hunk} (hcovers : Covers old new i j i' j' h) (hne : h ≠ []) :
    i' ≤ old.length ∧ j' ≤ new.length := by
  obtain ⟨first, last, -, hlast, -, -, rfl, rfl⟩ := hcovers.ends hne
  have hholds := hcovers.holds last (List.mem_of_getLast? hlast)
  exact ⟨hholds.oldStop, hholds.newStop⟩

variable [BEq α] [LawfulBEq α]

/-- **Hunks applied in order** give the lines of the new side. -/
theorem applyFrom_patchOf {hs : List Hunk} (h : Hunked old new i j hs) :
    applyFrom old i j (hs.map (patchOf old new)) = some (new.drop j) := by
  induction hs generalizing i j with
  | nil =>
    obtain ⟨k, hold, hnew, halike⟩ := h
    have hlines := sliceList_eq_of_alike halike
    rw [← hold, ← hnew] at hlines
    rw [List.map_nil, applyFrom, ← sliceList_length old i, hlines, sliceList_length]
  | cons h hs ih =>
    obtain ⟨hne, k, i', j', halike, hcovers, hrest⟩ := h
    obtain ⟨hold, hnew⟩ := hcovers.le
    obtain ⟨holdStop, hnewStop⟩ := hcovers.stop_le hne
    obtain ⟨holdLines, hnewLines⟩ := hcovers.lines
    have hheader : (patchOf old new h).header = ⟨i + k, i' - (i + k), j + k, j' - (j + k)⟩ := hcovers.headerOf_eq hne
    have hoffset : j + (i + k - i) = j + k := by rw [Nat.add_sub_cancel_left]
    rw [List.map_cons, applyFrom, hheader]
    dsimp only
    rw [holdLines, hnewLines, length_sliceList old holdStop, length_sliceList new hnewStop, hoffset,
      Nat.add_sub_cancel' hold, Nat.add_sub_cancel' hnew, ih hrest,
      if_pos ⟨Nat.le_add_right i k, rfl, rfl, rfl, beq_self_eq_true _⟩]
    refine congrArg some ?_
    rw [List.append_assoc, sliceList_append_drop new hnew, sliceList_eq_of_alike halike,
      sliceList_append_drop new (Nat.le_add_right j k)]

end

end SlotEdit.Diff
