import SlotEdit.Proofs.CommandLine.Lines

/-!
# Proofs/CommandLine/Keeping — command lines that leave all files as they are

Only the two commands that edit a file write to it, and all they do behind that is to tell so.  A
command line that ends badly, or only shows its edit, leaves all files as they are, with two
exceptions (`execute_of_dry_or_failed`).  A value that holds half of a surrogate pair is found out too
late, and the file is empty then; and where the console cannot show the line on the edit, with the
path in it as it is, the edit has been written.
-/

namespace SlotEdit

/-- The file that a command edits, the value it is given, and whether the edit is only shown. -/
def Command.edit? : Command → Option (Path × String × Bool)
  | .setSlot file _ _ _ value _ dryRun _ => some (file, value, dryRun)
  | .setProperty file _ _ value _ dryRun => some (file, value, dryRun)
  | _ => none

/-- **What is written for the value of a JSON text**, or in front of it, holds half of a surrogate pair. -/
def HoldsHalf [Interpreter] (value : String) (c : Configuration) : Prop :=
  (∃ v t, Json.decode value = .ok v ∧ Json.encode v = .ok t ∧ t.toString? = none) ∨
    ∃ t ∈ c.indentation, t.toString? = none

/-- The only kind of slot that writes a half is JSON. -/
theorem holdsHalf_of_serialize [Interpreter] {valuator : Valuator} {value : String} {v written : Value} {t : LooseText}
    (hread : valuator.deserialize value = .ok v) (hwrite : valuator.serialize v = .ok written)
    (htext : written.text? = some t) (hhalf : t.toString? = none) (c : Configuration) : HoldsHalf value c := by
  rcases Valuator.written_cases hread hwrite with ⟨s, rfl⟩ | ⟨t', hv, ht', rfl⟩
  · obtain rfl := Option.some.inj htext
    rw [LooseText.toString?_ofString] at hhalf
    cases hhalf
  · obtain rfl := Option.some.inj ((Value.text?_ofText t').symm.trans htext)
    exact .inl ⟨v, t', hv, ht', hhalf⟩

/-- **The files are as they were**, and no crash has come too late for that. -/
structure Outcome.Keeps (o : Outcome) (files : Files) : Prop where
  files : o.files = files
  inTime : ∀ c, o.crash = some c → ¬ c.IsLate

/-- **A file with a text in it has another one**, and the command has crashed. -/
structure Outcome.Overwrites (o : Outcome) (files : Files) (file : Path) (c : Crash) (old new : String) : Prop where
  crashed : o.crash = some c
  content : files.content? file = some (.text old)
  nonempty : old ≠ ""
  overwritten : files.Overwritten file new o.files

namespace Run

variable {s s' : Session}

theorem Stopped.outcome_keeps {fs : Files} {r : Except Ending Unit × Session} (h : Stopped fs r) :
    (Outcome.ofResult r).Keeps fs := ⟨(Outcome.of_stopped h).1, (Outcome.of_stopped h).2.2⟩

theorem Reads.outcome_keeps {m : Run Unit} (h : Reads m) (s : Session) :
    (Outcome.ofResult (m.resultIn s)).Keeps s.files := by
  refine ⟨?_, fun c hc hlate => ?_⟩
  · rw [Outcome.files_ofResult]
    exact (h.keeps s).files
  · exact (h.fails s _ (Outcome.crash_ofResult.mp hc)).2 c rfl hlate

/-- **The ways an edit ends**: the files are as they were, or the edit is done, or its text held half of a
surrogate pair and the file is empty, or the edit is done and the console could not show the line on it. -/
theorem applyEdit_ends {d : Document} {file : Path} (hread : s.files.readText file = .ok d.content)
    (hcontent : d.content ≠ "") (edit : TextEdit) :
    (Outcome.ofResult ((applyEdit d edit file false).resultIn s)).Keeps s.files ∨
      (Outcome.ofResult ((applyEdit d edit file false).resultIn s)).exitCode = 0 ∨
      ∃ old, d.content = unifyNewlines old ∧
        ((∃ t, edit.text.text? = some t ∧ t.toString? = none) ∧
            (Outcome.ofResult ((applyEdit d edit file false).resultIn s)).Overwrites s.files file .notEncodable old "" ∨
          ∃ new : String, editedText d [edit] = .ok new ∧ s.console.refuses (updated file edit) = true ∧
            (Outcome.ofResult ((applyEdit d edit file false).resultIn s)).Overwrites s.files file
              (.notShown (updated file edit)) old new) := by
  obtain ⟨old, hold, htext⟩ := Files.content?_of_readText hread
  have hne : old ≠ "" := by
    rintro rfl
    exact hcontent htext
  rcases applyEdit_cases hold d edit with hstop | ⟨text, s', hmade, hover, hresult⟩
  · exact .inl hstop.outcome_keeps
  rw [hresult, toldOf]
  cases hnew : text.toString? with
  | some new =>
    rw [hnew] at hover
    dsimp only
    split
    · next hrefused =>
      obtain rfl := LooseText.toString?_eq_some.mp hnew
      exact .inr (.inr ⟨old, htext, .inr ⟨new, hmade, hrefused, rfl, hold, hne, hover⟩⟩)
    · exact .inr (.inl rfl)
  | none =>
    rw [hnew] at hover
    obtain ⟨t, ht, rfl⟩ := editedText_singleton.mp hmade
    rw [LooseText.toString?_around, Option.map_eq_none_iff] at hnew
    exact .inr (.inr ⟨old, htext, .inl ⟨⟨t, ht, hnew⟩, rfl, hold, hne, hover⟩⟩)

theorem ne_empty_of_ofText [Interpreter] {text : String} {root : Node} (h : Json.ofText text = .ok root) :
    text ≠ "" := by
  rintro rfl
  obtain ⟨w, hw, htext, -⟩ := Json.ofText_eq_ok.mp h
  have hempty := Template.isEmpty_eq_false (d := ⟨"", ⟨"", "", "", none⟩⟩) hw.toShaped htext
  cases hempty

/-- What a property's edit puts in holds a half only when the value does, or the indentation. -/
theorem PropertyTarget.holdsHalf [Interpreter] {d : Document} {objectKey key value : String} {fragment : Int}
    {c : Configuration}
    {v : Value} {edit : TextEdit} (h : PropertyTarget d objectKey key value fragment c v edit) {t : LooseText}
    (ht : edit.text.text? = some t) (hhalf : t.toString? = none) : HoldsHalf value c := by
  obtain ⟨w, found, pass, -, -, hfound, rfl, hobjects, hsaw, hcommit⟩ := h.exists_pass
  obtain ⟨text, front, hencode, hfront, hindentation⟩ := Template.exists_of_commit_eq_ok hobjects hsaw hfound hcommit
  rw [hfront, Value.text?_ofText] at ht
  obtain rfl := Option.some.inj ht
  rcases LooseText.toString?_append_eq_none.mp hhalf with hfront | htext
  · exact .inr (hindentation hfront)
  · exact .inl ⟨v, text, h.decoded, hencode, htext⟩

/-- **An edit that came too late to be left alone**: the file is empty or has the text that the edit makes. -/
def EndsLate [Interpreter] (o : Outcome) (console : Console) (files : Files) (file : Path) (value : String)
    (c : Configuration) :
    Prop :=
  ∃ old, HoldsHalf value c ∧ o.Overwrites files file .notEncodable old "" ∨
    ∃ d edit, ∃ new : String, d.content = unifyNewlines old ∧ editedText d [edit] = .ok new ∧
      console.refuses (updated file edit) = true ∧ o.Overwrites files file (.notShown (updated file edit)) old new

/-- **The ways a command ends**: the files are as they were, or an edit is done, or one comes too late. -/
theorem run_ends [Interpreter] (command : Command) (store : ConfigurationStore) (c : Configuration) (s : Session) :
    (Outcome.ofResult ((command.run store c).resultIn s)).Keeps s.files ∨
      ∃ file value, command.edit? = some (file, value, false) ∧
        ((Outcome.ofResult ((command.run store c).resultIn s)).exitCode = 0 ∨
          EndsLate (Outcome.ofResult ((command.run store c).resultIn s)) s.console s.files file value c) := by
  cases command with
  | languages => exact .inl ((reads_emit fun _ _ => Output.noConfusion).outcome_keeps s)
  | tree file language depth => exact .inl ((reads_tree _ _ _ _).outcome_keeps s)
  | find file regex nodeType language skipDescendants => exact .inl ((reads_find _ _ _ _ _ _).outcome_keeps s)
  | slots file regex options language => exact .inl ((reads_slots _ _ _ _ _).outcome_keeps s)
  | configuration => exact .inl ((reads_showConfiguration _ _).outcome_keeps s)
  | help => exact .inl ⟨rfl, fun _ h => nomatch h⟩
  | setSlot file regex options key value fragment dryRun language =>
    rw [Command.run]
    cases dryRun with
    | true => exact .inl ((reads_setSlot _ _ _ _ _ _ _ _).outcome_keeps s)
    | false =>
      rcases setSlot_cases file regex options key value fragment false language c s with
        hstop | ⟨d, group, written, s', hread, htarget, hs', hresult⟩
      · exact .inl hstop.outcome_keeps
      rw [← hs'.files] at hread ⊢
      rw [← hs'.console, hresult]
      rcases applyEdit_ends hread htarget.nonempty _ with
        hkept | hdone | ⟨old, htext, ⟨⟨t, ht, hhalf⟩, hover⟩ | ⟨new, hmade, hrefused, hover⟩⟩
      · exact .inl hkept
      · exact .inr ⟨file, value, rfl, .inl hdone⟩
      · obtain ⟨valuator, v, -, hv, hwritten⟩ := htarget.wrote
        exact .inr ⟨file, value, rfl, .inr ⟨old, .inl ⟨holdsHalf_of_serialize hv hwritten ht hhalf c, hover⟩⟩⟩
      · exact .inr ⟨file, value, rfl, .inr ⟨old, .inr ⟨d, _, new, htext, hmade, hrefused, hover⟩⟩⟩
  | setProperty file objectKey key value fragment dryRun =>
    rw [Command.run]
    cases dryRun with
    | true => exact .inl ((reads_setProperty _ _ _ _ _ _).outcome_keeps s)
    | false =>
      rcases setProperty_cases file objectKey key value fragment false c s with
        hstop | ⟨d, v, edit, s', hread, htarget, hs', hresult⟩
      · exact .inl hstop.outcome_keeps
      rw [← hs'.files] at hread ⊢
      rw [← hs'.console, hresult]
      obtain ⟨root, hroot⟩ := htarget.valid
      rcases applyEdit_ends hread (ne_empty_of_ofText hroot) edit with
        hkept | hdone | ⟨old, htext, ⟨⟨t, ht, hhalf⟩, hover⟩ | ⟨new, hmade, hrefused, hover⟩⟩
      · exact .inl hkept
      · exact .inr ⟨file, value, rfl, .inl hdone⟩
      · exact .inr ⟨file, value, rfl, .inr ⟨old, .inl ⟨htarget.holdsHalf ht hhalf, hover⟩⟩⟩
      · exact .inr ⟨file, value, rfl, .inr ⟨old, .inr ⟨d, edit, new, htext, hmade, hrefused, hover⟩⟩⟩

end Run

/-! ## Whole command lines -/

/-- **A command line that ends badly or only shows its edit** leaves all files as they are, unless it crashes
too late: on a value or an indentation that holds half of a surrogate pair, and then the file that it was to edit is
empty, or on a console that cannot show the line on the edit, and then the file has the text that the edit makes. -/
theorem execute_of_dry_or_failed [Interpreter] {console : Console} {home : Path} {env : Environment} {files : Files}
    {words : List String}
    (h : (execute console home env files words).exitCode ≠ 0 ∨
      ∃ command file value, Asks words command ∧ command.edit? = some (file, value, true)) :
    (execute console home env files words).Keeps files ∨
      ∃ command c file value old, Asks words command ∧
        ((ConfigurationStore.ofDirectory (configurationDirectory home)).load files env).1 = .ok c ∧
        command.edit? = some (file, value, false) ∧
        (HoldsHalf value c ∧ (execute console home env files words).Overwrites files file .notEncodable old "" ∨
          ∃ d edit, ∃ new : String, d.content = unifyNewlines old ∧ editedText d [edit] = .ok new ∧
            console.refuses (Run.updated file edit) = true ∧
            (execute console home env files words).Overwrites files file (.notShown (Run.updated file edit)) old new) := by
  rw [execute_eq] at h ⊢
  rcases Run.line_cases env (.ofDirectory (configurationDirectory home)) words ⟨console, files, none, []⟩ with
    hstop | ⟨-, s, hs, heq⟩ | ⟨command, c, s, hasks, hload, hs, heq⟩
  · exact .inl hstop.outcome_keeps
  · rw [heq]
    exact .inl ⟨hs.files, fun _ h => nomatch h⟩
  obtain rfl : s.files = files := hs.files
  obtain rfl : s.console = console := hs.console
  rw [heq] at h ⊢
  rcases Run.run_ends command (.ofDirectory (configurationDirectory home)) c s with
    hkept | ⟨file, value, hedit, hdone | ⟨old, hlate⟩⟩
  · exact .inl hkept
  · -- an edit that is done is neither a failure nor dry
    rcases h with hexit | ⟨command', file', value', hasks', hdry⟩
    · exact absurd hdone hexit
    · obtain rfl := hasks.unique hasks'
      cases hedit.symm.trans hdry
  · exact .inr ⟨command, c, file, value, old, hasks, hload, hedit, hlate⟩

/-- A property set to a text that is half of a surrogate pair, and one of a file whose path ends a style that was
never begun. -/
theorem execute_of_dry_or_failed_half_and_style :
    ∃ (console : Console) (home : Path) (env : Environment) (files : Files) (words words' : List String)
      (file file' : Path) (edit : TextEdit),
      Asks words (.setProperty file "m" "a" "\"\\ud800\"" 0 false) ∧
      (execute console home env files words).Overwrites files file .notEncodable
        "\x7b\"m\": \x7b\"a\": 1\x7d\x7d" "" ∧
      Asks words' (.setProperty file' "m" "a" "2" 0 false) ∧ file'.render = "t[/b].json" ∧
      (execute console home env files words').Overwrites files file' (.notShown (Run.updated file' edit))
        "\x7b\"m\": \x7b\"a\": 1\x7d\x7d" "\x7b\"m\": \x7b\"a\": 2\x7d\x7d" := by
  let console : Console := ⟨fun
    | .print markup => decide ("[/b]".toList <:+: markup.toList)
    | _ => false⟩
  let home : Path := ⟨false, ["home"]⟩
  let old : String := "\x7b\"m\": \x7b\"a\": 1\x7d\x7d"
  let files : Files := ⟨[(["t"], .text old), (["t[", "b].json"], .text old)], [["t["]]⟩
  let words : List String := ["json-set", "t", "-o", "m", "-k", "a", "-v", "\"\\ud800\""]
  let words' : List String := ["json-set", "t[/b].json", "-o", "m", "-k", "a", "-v", "2"]
  have hasks : Asks words (.setProperty ⟨false, ["t"]⟩ "m" "a" "\"\\ud800\"" 0 false) :=
    ⟨⟨none, .jsonSet, words.tail⟩, rfl, rfl⟩
  have hasks' : Asks words' (.setProperty ⟨false, ["t[", "b].json"]⟩ "m" "a" "2" 0 false) :=
    ⟨⟨none, .jsonSet, words'.tail⟩, rfl, rfl⟩
  have hover : (execute console home [] files words).Overwrites files ⟨false, ["t"]⟩ .notEncodable old "" := by
    have hexit : (execute console home [] files words).exitCode = 1 := by decide +kernel
    have hnew : (execute console home [] files words).files.content? ⟨false, ["t"]⟩ = some (.text "") := by
      decide +kernel
    have hcrash : (execute console home [] files words).crash.map Crash.message =
        some (Crash.notEncodable).message := by decide +kernel
    rcases execute_of_dry_or_failed (.inl (hexit.trans_ne Nat.one_ne_zero)) with
      hkept | ⟨command, c, file, value, text, hc, -, hedit, ⟨-, hover⟩ | ⟨d, edit, new, -, -, -, hover⟩⟩
    · rw [hkept.files] at hnew
      exact absurd hnew (by decide +kernel)
    · obtain rfl := hasks.unique hc
      obtain ⟨rfl, -⟩ := Prod.mk.inj (Option.some.inj hedit)
      obtain rfl : old = text := Content.text.inj (Option.some.inj hover.content)
      exact hover
    · rw [hover.crashed] at hcrash
      simp [Crash.message] at hcrash
  have hover' : ∃ edit, (execute console home [] files words').Overwrites files ⟨false, ["t[", "b].json"]⟩
      (.notShown (Run.updated ⟨false, ["t[", "b].json"]⟩ edit)) old "\x7b\"m\": \x7b\"a\": 2\x7d\x7d" := by
    have hexit : (execute console home [] files words').exitCode = 1 := by decide +kernel
    have hnew : (execute console home [] files words').files.content? ⟨false, ["t[", "b].json"]⟩ =
        some (.text "\x7b\"m\": \x7b\"a\": 2\x7d\x7d") := by decide +kernel
    rcases execute_of_dry_or_failed (.inl (hexit.trans_ne Nat.one_ne_zero)) with
      hkept | ⟨command, c, file, value, text, hc, -, hedit, hover⟩
    · rw [hkept.files] at hnew
      exact absurd hnew (by decide +kernel)
    obtain rfl := hasks'.unique hc
    obtain ⟨rfl, -⟩ := Prod.mk.inj (Option.some.inj hedit)
    rcases hover with ⟨-, hover⟩ | ⟨d, edit, new, -, -, -, hover⟩
    · have hempty := hover.overwritten.content.symm.trans hnew
      exact absurd hempty (by decide +kernel)
    · obtain rfl : old = text := Content.text.inj (Option.some.inj hover.content)
      obtain rfl := Content.text.inj (Option.some.inj (hover.overwritten.content.symm.trans hnew))
      exact ⟨edit, hover⟩
  obtain ⟨edit, hover'⟩ := hover'
  exact ⟨console, home, [], files, words, words', _, _, edit, hasks, hover, hasks', by decide +kernel, hover'⟩

end SlotEdit
