import SlotEdit.Proofs.CommandLine.Lines
import SlotEdit.Proofs.Edit.Splicing
import SlotEdit.Proofs.Regex.Captures
import SlotEdit.Proofs.Text.Splitting

/-!
# Proofs/CommandLine/SettingSlots — what giving a slot another value does to a file

The file is read with a line feed for every line break and written back whole, so that the group of
the slot changes, and with it every carriage return of the file (`execute_setSlot`).
-/

namespace SlotEdit

open Run

/-- The group of a slot is a piece of the text. -/
theorem Run.SlotTarget.within [Interpreter] {content regex key value : String} {options : List String} {fragment : Int}
    {group : Regex.FoundGroup} {written : Value}
    (h : SlotTarget content regex options key value fragment group written) :
    group.span.start ≤ group.span.stop ∧ group.span.stop ≤ content.toList.length := by
  obtain ⟨f, m, -, hm, hgroup⟩ := h.found
  exact Regex.within_of_mem_findAll (List.mem_of_getElem? hm) (List.mem_of_find?_eq_some hgroup)

/-- What a valuator writes for a value that it has read is a text. -/
theorem exists_ofText_of_serialize [Interpreter] {valuator : Valuator} {text : String} {v written : Value}
    (hread : valuator.deserialize text = .ok v) (hwrite : valuator.serialize v = .ok written) :
    ∃ t, written = .ofText t := by
  rcases Valuator.written_cases hread hwrite with ⟨s, rfl⟩ | ⟨t, -, -, rfl⟩
  · exact ⟨s, (Value.ofText_ofString s).symm⟩
  · exact ⟨t, rfl⟩

/-- **A slot given another value**: the file then holds its text with the group of the slot replaced,
and a line feed for each of its other line breaks.  These are all its other characters just when no
carriage return stands outside the group. -/
theorem execute_setSlot [Interpreter] {console : Console} {home file : Path} {env : Environment} {files : Files}
    {words options : List String}
    {regex key value : String} {fragment : Int} {language : Option String}
    (hasks : Asks words (.setSlot file regex options key value fragment false language))
    (hexit : (execute console home env files words).exitCode = 0) :
    ∃ (s : String) (p g q : List Char) (group : Regex.FoundGroup) (written : String),
      files.content? file = some (.text s) ∧ s.toList = p ++ g ++ q ∧
      unifyNewlineChars s.toList = unifyNewlineChars p ++ unifyNewlineChars g ++ unifyNewlineChars q ∧
      group.span =
        ⟨(unifyNewlineChars p).length, (unifyNewlineChars p).length + (unifyNewlineChars g).length⟩ ∧
      SlotTarget (unifyNewlines s) regex options key value fragment group (.str written) ∧
      files.Overwritten file (String.ofList (unifyNewlineChars p ++ written.toList ++ unifyNewlineChars q))
        (execute console home env files words).files ∧
      (unifyNewlineChars p ++ written.toList ++ unifyNewlineChars q = p ++ written.toList ++ q ↔
        '\r' ∉ p ∧ '\r' ∉ q) := by
  rcases execute_of_asks hasks console home env files with ⟨-, hfails, -⟩ | ⟨c, s₀, -, hs₀, heq⟩
  · exact absurd hexit hfails
  rw [heq] at hexit ⊢
  rcases setSlot_cases file regex options key value fragment false language c s₀ with
    hstop | ⟨d, group, written, s₁, hread, htarget, hs₁, hedit⟩
  · exact absurd hexit (Outcome.of_stopped hstop).2.1
  rw [Command.run, hedit] at hexit ⊢
  obtain ⟨s, hcontent, htext⟩ := Files.content?_of_readText hread
  have hold := hcontent
  rw [← hs₁.files] at hold
  obtain ⟨new, hmade, hover⟩ := Outcome.exists_of_applyEdit hold hexit
  rw [hs₁.files, hs₀] at hover
  -- where the group stands in the file
  obtain ⟨hle, hstop⟩ := htarget.within
  rw [htext, unifyNewlines, String.toList_ofList] at hstop
  obtain ⟨p, g, q, hsplit, hunified, hstart, hend⟩ := exists_unified_piece hle hstop
  have hchars : d.content.toList = unifyNewlineChars p ++ unifyNewlineChars g ++ unifyNewlineChars q := by
    rw [htext, unifyNewlines, String.toList_ofList, hunified]
  have hspan : d.spanOf (d.lines.rangeOf group.span.start group.span.stop) =
      ⟨(unifyNewlineChars p).length, (unifyNewlineChars p).length + (unifyNewlineChars g).length⟩ := by
    rw [hend, hstart]
    exact d.spanOf_rangeOf hle (htarget.within.2)
  obtain ⟨hfront, hback⟩ := around_of_span (unifyNewlineChars q) hspan
  obtain ⟨t, ht, hnew⟩ := editedText_singleton.mp hmade
  rw [show (TextEdit.replace (d.lines.rangeOf group.span.start group.span.stop) written).range =
    d.lines.rangeOf group.span.start group.span.stop from rfl, hchars, hfront, hback] at hnew
  have hnew := congrArg LooseText.toString? hnew
  rw [LooseText.toString?_ofString, LooseText.toString?_around, eq_comm, Option.map_eq_some_iff] at hnew
  obtain ⟨word, hword, rfl⟩ := hnew
  obtain rfl := LooseText.toString?_eq_some.mp hword
  have hwritten : written = .str word := by
    obtain ⟨valuator, v, -, hv, hw⟩ := htarget.wrote
    obtain ⟨t, rfl⟩ := exists_ofText_of_serialize hv hw
    obtain rfl := Option.some.inj ((Value.text?_ofText t).symm.trans ht)
    exact Value.ofText_ofString word
  have hgroup : group.span =
      ⟨(unifyNewlineChars p).length, (unifyNewlineChars p).length + (unifyNewlineChars g).length⟩ := by
    rw [hend, hstart]
  exact ⟨s, p, g, q, group, word, hs₀ ▸ hcontent, hsplit, hunified, hgroup,
    hwritten ▸ htext ▸ htarget, hover, unifyNewlineChars_around p _ q⟩

/-- A number set in a file whose lines end with carriage returns, which do not come back. -/
theorem execute_setSlot_carriageReturn :
    ∃ (console : Console) (home file : Path) (env : Environment) (files : Files) (words : List String),
      Asks words (.setSlot file "a=(?P<v>\\d+)" ["v:number"] "v" "7" 0 false none) ∧
      (execute console home env files words).exitCode = 0 ∧
      files.content? file = some (.text "a=1\r\nb=2\r\n") ∧
      (execute console home env files words).files.content? file = some (.text "a=7\nb=2\n") ∧
      ∃ (s : String) (p g q : List Char) (written : String), files.content? file = some (.text s) ∧
        s.toList = p ++ g ++ q ∧
        files.Overwritten file (String.ofList (unifyNewlineChars p ++ written.toList ++ unifyNewlineChars q))
          (execute console home env files words).files ∧
        (unifyNewlineChars p ++ written.toList ++ unifyNewlineChars q = p ++ written.toList ++ q ↔
          '\r' ∉ p ∧ '\r' ∉ q) := by
  let files : Files := ⟨[(["t"], .text "a=1\r\nb=2\r\n")], []⟩
  let words : List String := ["set", "t", "-r", "a=(?P<v>\\d+)", "-s", "v:number", "-k", "v", "-v", "7"]
  have hasks : Asks words (.setSlot ⟨false, ["t"]⟩ "a=(?P<v>\\d+)" ["v:number"] "v" "7" 0 false none) :=
    ⟨⟨none, .set, words.tail⟩, rfl, rfl⟩
  have hexit : (execute .plain ⟨false, ["home"]⟩ [] files words).exitCode = 0 := by decide +kernel
  obtain ⟨s, p, g, q, -, written, hcontent, hsplit, -, -, -, hover, hiff⟩ := execute_setSlot hasks hexit
  exact ⟨_, _, _, _, files, words, hasks, hexit, by decide +kernel, by decide +kernel, s, p, g, q, written, hcontent,
    hsplit, hover, hiff⟩

end SlotEdit
