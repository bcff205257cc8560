import SlotEdit.Proofs.CommandLine.Writing

/-!
# Proofs/CommandLine/Lines — whole command lines

A command line that is understood asks for one command (`Asks`).  What it comes to is what that
command comes to under the configuration, unless it ends badly before.
-/

namespace SlotEdit

/-- **A command line asks for a command.** -/
def Asks (words : List String) (command : Command) : Prop :=
  ∃ invocation, Invocation.ofWords words = .ok (some invocation) ∧
    invocation.name.command invocation.words = .ok command

namespace Run

theorem reads_orUsage {α : Type} (r : Except UsageFault α) : Reads (orUsage r) := by
  cases r with
  | ok a => exact .pure a
  | error fault => exact .throw (Ending.fails_exit (Nat.succ_ne_zero 1))

theorem orUsage_eq_ok {α : Type} {r : Except UsageFault α} {a : α} {s s' : Session}
    (h : (orUsage r).resultIn s = (.ok a, s')) : r = .ok a := by
  cases r with
  | ok b => exact congrArg Except.ok (Except.ok.inj (congrArg Prod.fst h))
  | error fault => cases h

theorem reads_configuration [Interpreter] (env : Environment) (store : ConfigurationStore) :
    Reads (configuration env store) :=
  Reads.get.bind fun _ => .orCrash (fun _ => by nofun) _

theorem configuration_eq_ok [Interpreter] {env : Environment} {store : ConfigurationStore} {c : Configuration}
    {s s' : Session}
    (h : (configuration env store).resultIn s = (.ok c, s')) : (store.load s.files env).1 = .ok c := by
  rw [configuration, resultIn_get_bind] at h
  exact orCrash_eq_ok h

theorem reads_setThreshold (asked : Option String) (c : Configuration) : Reads (setThreshold asked c) := by
  rw [setThreshold]
  split
  · exact .modify fun _ => ⟨rfl, rfl⟩
  · exact (reads_print (by simp)).bind fun _ => .modify fun _ => ⟨rfl, rfl⟩

/-- **A whole command line** ends badly with the files as they were, asks for help, or comes as far
as a command under the configuration that is loaded. -/
theorem line_cases [Interpreter] (env : Environment) (store : ConfigurationStore) (words : List String) (s : Session) :
    Stopped s.files ((line env store words).resultIn s) ∨
      (Invocation.ofWords words = .ok none ∧ ∃ s', s'.Keeps s ∧ (line env store words).resultIn s = (.ok (), s')) ∨
      ∃ command c s', Asks words command ∧ (store.load s.files env).1 = .ok c ∧ s'.Keeps s ∧
        (line env store words).resultIn s = (command.run store c).resultIn s' := by
  rw [line]
  rcases (reads_orUsage _).bind_cases _ s with hstop | ⟨invocation?, s₁, hinvocation, hs₁, heq₁⟩
  · exact .inl hstop
  have hwords := orUsage_eq_ok hinvocation
  rw [heq₁]
  cases invocation? with
  | none => exact .inr (.inl ⟨hwords, s₁, hs₁, rfl⟩)
  | some invocation =>
    dsimp only
    rcases (reads_configuration _ _).bind_cases _ s₁ with hstop | ⟨c, s₂, hload, hs₂, heq₂⟩
    · exact .inl (hstop.of_eq rfl hs₁)
    rcases (reads_setThreshold _ _).bind_cases _ s₂ with hstop | ⟨_, s₃, -, hs₃, heq₃⟩
    · exact .inl (hstop.of_eq heq₂ (hs₂.trans hs₁))
    rcases (reads_orUsage _).bind_cases _ s₃ with hstop | ⟨command, s₄, hcommand, hs₄, heq₄⟩
    · exact .inl (hstop.of_eq (heq₂.trans heq₃) (hs₃.trans (hs₂.trans hs₁)))
    refine .inr (.inr ⟨command, c, s₄, ⟨invocation, hwords, orUsage_eq_ok hcommand⟩, ?_, ?_, ?_⟩)
    · exact hs₁.files ▸ configuration_eq_ok hload
    · exact hs₄.trans (hs₃.trans (hs₂.trans hs₁))
    · exact heq₂.trans (heq₃.trans heq₄)

end Run

theorem Asks.unique {words : List String} {command command' : Command} (h : Asks words command)
    (h' : Asks words command') : command = command' := by
  obtain ⟨invocation, hwords, hcommand⟩ := h
  obtain ⟨invocation', hwords', hcommand'⟩ := h'
  obtain rfl := Option.some.inj (Except.ok.inj (hwords.symm.trans hwords'))
  exact Except.ok.inj (hcommand.symm.trans hcommand')

/-- The outcome of what a command line comes to. -/
def Outcome.ofResult : Except Ending Unit × Session → Outcome
  | (.ok _, s) => ⟨0, none, s.output, s.files⟩
  | (.error (.exit code), s) => ⟨code, none, s.output, s.files⟩
  | (.error (.crash c), s) => ⟨1, some c, s.output, s.files⟩

theorem Outcome.files_ofResult (r : Except Ending Unit × Session) : (Outcome.ofResult r).files = r.2.files := by
  obtain ⟨(code | c) | u, s⟩ := r <;> rfl

theorem Outcome.crash_ofResult {r : Except Ending Unit × Session} {c : Crash} :
    (Outcome.ofResult r).crash = some c ↔ r.1 = .error (.crash c) := by
  obtain ⟨(code | c') | u, s⟩ := r
  · exact ⟨fun h => (nomatch h), fun h => nomatch h⟩
  · exact ⟨fun h => congrArg (fun c => Except.error (Ending.crash c)) (Option.some.inj h),
      fun h => congrArg some (Ending.crash.inj (Except.error.inj h))⟩
  · exact ⟨fun h => (nomatch h), fun h => nomatch h⟩

theorem execute_eq [Interpreter] (console : Console) (home : Path) (env : Environment) (files : Files)
    (words : List String) :
    execute console home env files words = Outcome.ofResult
      ((Run.line env (.ofDirectory (configurationDirectory home)) words).resultIn ⟨console, files, none, []⟩) := by
  rw [execute]
  show _ = Outcome.ofResult ((Run.line env _ words).run.run _)
  rcases (Run.line env (.ofDirectory (configurationDirectory home)) words).run.run ⟨console, files, none, []⟩ with
    ⟨(code | c) | u, s⟩ <;> rfl

/-- A command line that ends badly before it writes leaves the files and says so. -/
theorem Outcome.of_stopped {files : Files} {r : Except Ending Unit × Session} (h : Run.Stopped files r) :
    (Outcome.ofResult r).files = files ∧ (Outcome.ofResult r).exitCode ≠ 0 ∧
      ∀ c, (Outcome.ofResult r).crash = some c → ¬ c.IsLate := by
  obtain ⟨e, s, rfl, ⟨hexit, hcrash⟩, hfiles⟩ := h
  cases e with
  | exit code => exact ⟨hfiles, fun h => hexit (congrArg Ending.exit h), fun _ h => nomatch h⟩
  | crash c => exact ⟨hfiles, Nat.one_ne_zero, fun _ h => Option.some.inj h ▸ hcrash c rfl⟩

/-- **An edit that is done** leaves the file with the text it makes, and all else as it was. -/
theorem Outcome.exists_of_applyEdit {s : Session} {file : Path} {old : Content} {d : Document} {edit : TextEdit}
    (hold : s.files.content? file = some old)
    (hexit : (Outcome.ofResult ((Run.applyEdit d edit file false).resultIn s)).exitCode = 0) :
    ∃ new : String, editedText d [edit] = .ok new ∧
      s.files.Overwritten file new (Outcome.ofResult ((Run.applyEdit d edit file false).resultIn s)).files := by
  rcases Run.applyEdit_cases hold d edit with hstop | ⟨text, s', hmade, hover, hresult⟩
  · exact absurd hexit (Outcome.of_stopped hstop).2.1
  rw [hresult, Run.toldOf] at hexit ⊢
  -- the text was one, since the command did not crash
  cases hnew : text.toString? with
  | some new =>
    rw [hnew] at hover hexit
    dsimp only at hexit ⊢
    split at hexit
    · exact absurd hexit Nat.one_ne_zero
    · next hshown =>
      rw [if_neg hshown]
      exact ⟨new, LooseText.toString?_eq_some.mp hnew ▸ hmade, hover⟩
  | none =>
    rw [hnew] at hexit
    exact absurd hexit Nat.one_ne_zero

/-- **A command line that asks for a command** ends badly with the files as they were, or comes to
what the command comes to. -/
theorem execute_of_asks [Interpreter] {words : List String} {command : Command} (h : Asks words command)
    (console : Console)
    (home : Path) (env : Environment) (files : Files) :
    ((execute console home env files words).files = files ∧ (execute console home env files words).exitCode ≠ 0 ∧
        ∀ c, (execute console home env files words).crash = some c → ¬ c.IsLate) ∨
      ∃ c s, ((ConfigurationStore.ofDirectory (configurationDirectory home)).load files env).1 = .ok c ∧
        s.files = files ∧ execute console home env files words =
        Outcome.ofResult ((command.run (.ofDirectory (configurationDirectory home)) c).resultIn s) := by
  rw [execute_eq]
  rcases Run.line_cases env (.ofDirectory (configurationDirectory home)) words ⟨console, files, none, []⟩ with
    hstop | ⟨hnone, -⟩ | ⟨command', c, s, hasks, hload, hs, heq⟩
  · exact .inl (Outcome.of_stopped hstop)
  · obtain ⟨invocation, hwords, -⟩ := h
    cases hwords.symm.trans hnone
  · obtain rfl := h.unique hasks
    exact .inr ⟨c, s, hload, hs.files, congrArg Outcome.ofResult heq⟩

end SlotEdit
