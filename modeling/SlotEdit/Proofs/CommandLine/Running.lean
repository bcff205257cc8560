import SlotEdit.CommandLine.Execution
import SlotEdit.Proofs.Results

/-!
# Proofs/CommandLine/Running — what parts of commands do to a session

A part of a command that `Reads` leaves all files as they are, and ends the command only with an
error of the user's or the program's.  All parts do, but for the one that writes; what comes behind
it is a line on the edit, and a console that cannot show that line ends the command as well
(`Crash.IsLate`).
-/

namespace SlotEdit

/-- A crash behind the point where a file is opened to be written. -/
inductive Crash.IsLate : Crash → Prop
  | notEncodable : IsLate .notEncodable
  | notShown (p : Path) (edit : TextEdit) : IsLate (.notShown (Run.updated p edit))

/-- The command ends badly, and before a file is opened to be written. -/
def Ending.Fails (e : Ending) : Prop := e ≠ .exit 0 ∧ ∀ c, e = .crash c → ¬ c.IsLate

theorem Ending.fails_crash {c : Crash} (h : ¬ c.IsLate) : (Ending.crash c).Fails :=
  ⟨Ending.noConfusion, fun _ heq => Ending.crash.inj heq ▸ h⟩

theorem Ending.fails_exit {code : Nat} (h : code ≠ 0) : (Ending.exit code).Fails :=
  ⟨fun heq => h (Ending.exit.inj heq), fun _ heq => Ending.noConfusion heq⟩

/-- **A session later on** that has the console and the files of one before. -/
structure Session.Keeps (s' s : Session) : Prop where
  files : s'.files = s.files
  console : s'.console = s.console

namespace Session.Keeps

theorem refl (s : Session) : s.Keeps s := ⟨rfl, rfl⟩

theorem trans {s s' s'' : Session} (h : s''.Keeps s') (h' : s'.Keeps s) : s''.Keeps s :=
  ⟨h.files.trans h'.files, h.console.trans h'.console⟩

end Session.Keeps

namespace Run

variable {α β ε : Type} {s s' : Session} {m : Run α} {next : α → Run β}

/-- What a part of a command comes to in a session, and the session behind it. -/
def resultIn (m : Run α) (s : Session) : Except Ending α × Session := m.run.run s

theorem resultIn_pure (a : α) : (pure a : Run α).resultIn s = (.ok a, s) := rfl

theorem resultIn_bind : (m >>= next).resultIn s =
    match m.resultIn s with
    | (.ok a, s') => (next a).resultIn s'
    | (.error e, s') => (.error e, s') := by
  show (ExceptT.bindCont next (m.resultIn s).1 : StateM Session (Except Ending β)) (m.resultIn s).2 = _
  rcases m.resultIn s with ⟨a | e, s'⟩ <;> rfl

theorem resultIn_bind_ok {a : α} (h : m.resultIn s = (.ok a, s')) :
    (m >>= next).resultIn s = (next a).resultIn s' := by
  rw [resultIn_bind, h]

/-- **A chain of parts comes through** when each part does. -/
theorem resultIn_bind_eq_ok {b : β} {s'' : Session} : (m >>= next).resultIn s = (.ok b, s'') ↔
    ∃ a s', m.resultIn s = (.ok a, s') ∧ (next a).resultIn s' = (.ok b, s'') := run_bind_eq_ok

theorem resultIn_get_bind (next : Session → Run β) : (get >>= next).resultIn s = (next s).resultIn s := rfl

/-- **The command has ended badly**, with the files as they were. -/
def Stopped (fs : Files) (r : Except Ending α × Session) : Prop :=
  ∃ e s', r = (.error e, s') ∧ e.Fails ∧ s'.files = fs

theorem Stopped.of_eq {r r' : Except Ending α × Session} (h : Stopped s'.files r') (hr : r = r')
    (hkeeps : s'.Keeps s) : Stopped s.files r := by
  rw [hr, ← hkeeps.files]
  exact h

/-- **A part that only reads.** -/
structure Reads (m : Run α) : Prop where
  keeps : ∀ s, (m.resultIn s).2.Keeps s
  fails : ∀ s e, (m.resultIn s).1 = .error e → e.Fails

namespace Reads

theorem pure (a : α) : Reads (pure a) := ⟨.refl, fun _ _ h => nomatch h⟩

theorem throw {e : Ending} (h : e.Fails) : Reads (throw e : Run α) :=
  ⟨.refl, fun _ _ heq => Except.error.inj heq ▸ h⟩

theorem get : Reads (MonadStateOf.get : Run Session) := ⟨.refl, fun _ _ h => nomatch h⟩

theorem modify {f : Session → Session} (h : ∀ s, (f s).Keeps s) : Reads (modify f : Run Unit) :=
  ⟨h, fun _ _ h => nomatch h⟩

/-- What comes behind has to read only for what the first part may come to. -/
theorem bind_of_ok (h : Reads m) (hnext : ∀ a s s', m.resultIn s = (.ok a, s') → Reads (next a)) :
    Reads (m >>= next) := by
  constructor
  · intro s
    rw [resultIn_bind]
    have hkeeps := h.keeps s
    rcases hm : m.resultIn s with ⟨e | a, s'⟩
    · rwa [hm] at hkeeps
    · rw [hm] at hkeeps
      exact ((hnext a s s' hm).keeps s').trans hkeeps
  · intro s e he
    rw [resultIn_bind] at he
    rcases hm : m.resultIn s with ⟨e' | a, s'⟩
    · rw [hm] at he
      obtain rfl : e' = e := Except.error.inj he
      exact h.fails s e' (congrArg Prod.fst hm)
    · rw [hm] at he
      exact (hnext a s s' hm).fails s' e he

theorem bind (h : Reads m) (hnext : ∀ a, Reads (next a)) : Reads (m >>= next) :=
  h.bind_of_ok fun a _ _ _ => hnext a

/-- **A part that reads comes first**: the whole ends badly with the files as they were, or goes on
with them. -/
theorem bind_cases (h : Reads m) (next : α → Run β) (s : Session) :
    Stopped s.files ((m >>= next).resultIn s) ∨
      ∃ a s', m.resultIn s = (.ok a, s') ∧ s'.Keeps s ∧ (m >>= next).resultIn s = (next a).resultIn s' := by
  have hkeeps := h.keeps s
  have hfails := h.fails s
  rw [resultIn_bind]
  generalize m.resultIn s = result at hkeeps hfails ⊢
  obtain ⟨e | a, s'⟩ := result
  · exact .inl ⟨e, s', rfl, hfails e rfl, hkeeps.files⟩
  · exact .inr ⟨a, s', rfl, hkeeps, rfl⟩

theorem orCrash {c : ε → Crash} (h : ∀ e, ¬ (c e).IsLate) (r : Except ε α) : Reads (orCrash c r) := by
  cases r with
  | ok a => exact pure a
  | error e => exact throw (Ending.fails_crash (h e))

end Reads

theorem orCrash_eq_ok {c : ε → Crash} {r : Except ε α} {a : α}
    (h : (orCrash c r).resultIn s = (.ok a, s')) : r = .ok a := by
  cases r with
  | ok b => exact congrArg Except.ok (Except.ok.inj (congrArg Prod.fst h))
  | error e => cases h

theorem resultIn_emit (o : Output) (s : Session) : (emit o).resultIn s =
    if s.console.refuses o then (.error (.crash (.notShown o)), s) else (.ok (), { s with output := s.output ++ [o] }) := by
  rw [emit, resultIn_get_bind]
  split
  · rfl
  · rfl

theorem reads_emit {o : Output} (h : ∀ p edit, o ≠ updated p edit) : Reads (emit o) := by
  refine ⟨fun s => ?_, fun s e he => ?_⟩
  · rw [resultIn_emit]
    split
    · exact .refl s
    · exact ⟨rfl, rfl⟩
  · rw [resultIn_emit] at he
    split at he
    · obtain rfl := Except.error.inj he
      refine Ending.fails_crash fun hlate => ?_
      generalize hc : Crash.notShown o = c at hlate
      cases hlate with
      | notEncodable => cases hc
      | notShown p edit => exact h p edit (Crash.notShown.inj hc)
    · cases he

/-- A line that does not begin as the one on an edit. -/
theorem reads_print {markup : String} (h : markup.toList.take 2 ≠ ['[', 'g']) : Reads (print markup) := by
  refine reads_emit fun p edit heq => h ?_
  rw [Output.print.inj heq]
  simp only [String.toList_append]
  rfl

theorem reads_printError (markup : String) : Reads (printError markup) :=
  reads_print (by simp)

theorem reads_fail (markup : String) : Reads (fail markup : Run α) :=
  (reads_printError markup).bind fun _ => .throw (Ending.fails_exit Nat.one_ne_zero)

theorem stopped_fail (markup : String) (s : Session) : Stopped s.files ((fail markup : Run α).resultIn s) := by
  rcases (reads_printError markup).bind_cases (fun _ => throw (.exit 1)) s with hstop | ⟨_, s', -, hs', heq⟩
  · exact hstop
  · exact ⟨.exit 1, s', heq, Ending.fails_exit Nat.one_ne_zero, hs'.files⟩

theorem resultIn_fail_ne_ok {markup : String} {a : α} : (fail markup : Run α).resultIn s ≠ (.ok a, s') := fun h => by
  obtain ⟨e, _, heq, -⟩ := stopped_fail markup s
  cases heq.symm.trans h

theorem reads_crash {c : Crash} (h : ¬ c.IsLate) : Reads (crash c : Run α) := .throw (Ending.fails_crash h)

theorem reads_require (condition : Bool) (markup : String) : Reads (require condition markup) := by
  rw [require]
  split
  · exact .pure _
  · exact reads_fail _

theorem reads_log (level : LogLevel) (message : String) : Reads (log level message) := by
  refine .modify fun s => ?_
  split
  · exact ⟨rfl, rfl⟩
  · exact .refl s

theorem reads_syntaxTree [Interpreter] (g : Grammar) (d : Document) : Reads (syntaxTree g d) := by
  rw [syntaxTree]
  split
  · exact (reads_log _ _).bind fun _ => .pure _
  · exact .pure _

theorem reads_matchesOf (f : Regex.Finder) (d : Document) : Reads (matchesOf f d) := by
  rw [matchesOf]
  split
  · exact (reads_log _ _).bind fun _ => .pure _
  · exact .pure _

theorem reads_reportNodes (d : Document) (count : Nat) : Reads (reportNodes d count) := by
  rw [reportNodes]
  split
  · exact .pure _
  · exact reads_log _ _

theorem reads_compute [Interpreter] (t : Template) (d : Document) : Reads (compute t d) := by
  refine (Reads.orCrash (fun _ => by nofun) _).bind fun t' => ?_
  split
  · exact (reads_matchesOf _ _).bind fun _ => (reads_log _ _).bind fun _ => .pure _
  · exact (reads_reportNodes _ _).bind fun _ => (reads_log _ _).bind fun _ => .pure _

theorem reads_document (p : Path) (asked : Option String) (c : Configuration) : Reads (document p asked c) := by
  refine Reads.get.bind fun s => (reads_require _ _).bind fun _ => ?_
  split
  · split
    · exact (Reads.orCrash (fun _ => by nofun) _).bind fun _ => .pure _
    · exact (reads_printError _).bind fun _ => (reads_print (by simp)).bind fun _ =>
        .throw (Ending.fails_exit Nat.one_ne_zero)
  · exact reads_crash (by nofun)

theorem Reads.mapM {f : α → Run β} (h : ∀ a, Reads (f a)) (as : List α) : Reads (as.mapM f) := by
  induction as with
  | nil => rw [List.mapM_nil]; exact .pure []
  | cons a as ih => rw [List.mapM_cons]; exact (h a).bind fun _ => ih.bind fun _ => .pure _

theorem reads_slotSpecification (options : List String) : Reads (slotSpecification options) := by
  refine (Reads.mapM (fun option => ?_) options).bind fun _ => .pure _
  dsimp only
  split
  · exact .pure _
  · exact reads_fail _

theorem reads_finderForEdit [Interpreter] (pattern : String) : Reads (finderForEdit pattern) := by
  rw [finderForEdit]
  split
  · exact .pure _
  · split
    · exact reads_crash (by nofun)
    · exact reads_crash (by nofun)
    · exact reads_fail _

theorem reads_fragmentAt (t : Template) (index : Int) : Reads (fragmentAt t index) := by
  rw [fragmentAt]
  split
  · exact .pure _
  · exact reads_fail _

theorem reads_orReport (words : String → String) (r : Except TemplateFault α) : Reads (orReport words r) := by
  cases r with
  | ok a => exact .pure a
  | error fault =>
    rw [orReport.eq_def]
    dsimp only
    split
    · exact reads_fail _
    · exact reads_crash (by nofun)

/-! ## Commands that show something -/

theorem reads_tree [Interpreter] (file : Path) (language : Option String) (depth : Option Int) (c : Configuration) :
    Reads (tree file language depth c) := by
  refine (reads_document _ _ _).bind fun d => ?_
  split
  · exact reads_print (by simp)
  · refine (reads_syntaxTree _ _).bind fun tree => (reads_emit fun _ _ => Output.noConfusion).bind fun _ => ?_
    split
    · exact reads_print (by simp)
    · exact .pure _

theorem reads_finder [Interpreter] (pattern : String) : Reads (finder pattern) := by
  rw [finder]
  split
  · exact .pure _
  · split
    · exact reads_fail _
    · exact reads_crash (by nofun)

theorem reads_nodesOfType [Interpreter] (typeName : String) (skipDescendants : Bool) (d : Document) :
    Reads (nodesOfType typeName skipDescendants d) := by
  rw [nodesOfType]
  split
  · exact reads_fail _
  · dsimp only
    split
    · exact (reads_syntaxTree _ _).bind fun _ => (reads_reportNodes _ _).bind fun _ => .pure _
    · exact (reads_reportNodes _ _).bind fun _ => .pure _

theorem reads_showFragments (fragments : List Fragment) (c : Configuration) : Reads (showFragments fragments c) := by
  rw [showFragments]
  split
  · exact reads_print (by simp)
  · exact reads_emit fun _ _ => Output.noConfusion

theorem reads_find [Interpreter] (file : Path) (regex nodeType language : Option String) (skipDescendants : Bool)
    (c : Configuration) : Reads (find file regex nodeType language skipDescendants c) := by
  rw [find.eq_def]
  split
  · exact (reads_document _ _ _).bind fun _ => (reads_finder _).bind fun _ => (reads_matchesOf _ _).bind fun _ =>
      reads_showFragments _ _
  · exact (reads_document _ _ _).bind fun _ => (reads_nodesOfType _ _ _).bind fun _ => reads_showFragments _ _
  · exact reads_fail _

theorem ne_updated_of_slotsTable [Interpreter] {t : Template} {limit : Int} {o : Output}
    (h : slotsTable t limit = .ok o) (p : Path)
    (edit : TextEdit) : o ≠ updated p edit := by
  obtain ⟨rows, -, h⟩ := bind_eq_ok.mp h
  exact Except.ok.inj h ▸ Output.noConfusion

theorem ne_updated_of_configurationTable {rows : List (String × Value)} {o : Output}
    (h : configurationTable rows = .ok o) (p : Path) (edit : TextEdit) : o ≠ updated p edit := by
  obtain ⟨rows, -, h⟩ := bind_eq_ok.mp h
  exact Except.ok.inj h ▸ Output.noConfusion

theorem reads_slots [Interpreter] (file : Path) (regex : String) (options : List String) (language : Option String)
    (c : Configuration) : Reads (slots file regex options language c) := by
  refine (reads_document _ _ _).bind fun _ => (reads_slotSpecification _).bind fun _ => (reads_finder _).bind fun _ =>
    (reads_compute _ _).bind fun _ => ?_
  split
  · exact reads_print (by simp)
  · refine (Reads.orCrash (fun _ => by nofun) _).bind_of_ok fun _ _ _ htable => reads_emit ?_
    exact ne_updated_of_slotsTable (orCrash_eq_ok htable)

theorem reads_showConfiguration (store : ConfigurationStore) (c : Configuration) :
    Reads (showConfiguration store c) :=
  Reads.get.bind fun _ => (Reads.orCrash (fun _ => by nofun) _).bind fun _ =>
    (Reads.orCrash (fun _ => by nofun) _).bind_of_ok fun _ _ _ htable => reads_emit
      (ne_updated_of_configurationTable (orCrash_eq_ok htable))

/-! ## Edits that are only shown -/

theorem reads_applyEdit (d : Document) (edit : TextEdit) (p : Path) : Reads (applyEdit d edit p true) :=
  (Reads.orCrash (fun _ => by nofun) _).bind fun _ => reads_emit fun _ _ => Output.noConfusion

theorem reads_setSlot [Interpreter] (file : Path) (regex : String) (options : List String) (key value : String)
    (fragment : Int)
    (language : Option String) (c : Configuration) :
    Reads (setSlot file regex options key value fragment true language c) := by
  refine (reads_document _ _ _).bind fun _ => (reads_slotSpecification _).bind fun _ => ?_
  split
  · exact reads_fail _
  · exact (reads_finderForEdit _).bind fun _ => (reads_compute _ _).bind fun _ => (reads_fragmentAt _ _).bind fun _ =>
      (reads_orReport _ _).bind fun _ => reads_applyEdit _ _ _

theorem reads_setProperty [Interpreter] (file : Path) (objectKey key value : String) (fragment : Int)
    (c : Configuration) :
    Reads (setProperty file objectKey key value fragment true c) :=
  (reads_document _ _ _).bind fun _ => (reads_syntaxTree _ _).bind fun _ => (reads_require _ _).bind fun _ =>
    (reads_compute _ _).bind fun _ => (reads_fragmentAt _ _).bind fun _ => (reads_orReport _ _).bind fun _ =>
      reads_applyEdit _ _ _

end Run

end SlotEdit
