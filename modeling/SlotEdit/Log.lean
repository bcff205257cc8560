/-!
# Log — messages for those who watch a program run

A `LogLine` is a message of some severity.  `LogLevel.threshold?` reads the name of the least
severity that is shown.
-/

namespace SlotEdit

/-- How severe a message is. -/
inductive LogLevel
  | debug
  | info
  | warning
deriving DecidableEq, Repr

namespace LogLevel

/-- The name of a severity. -/
def name : LogLevel → String
  | .debug => "DEBUG"
  | .info => "INFO"
  | .warning => "WARNING"

/-- The severity as a number. -/
def severity : LogLevel → Nat
  | .debug => 10
  | .info => 20
  | .warning => 30

/-- The names of thresholds; messages of less severity are not shown. -/
def thresholds : List (String × Nat) :=
  [("CRITICAL", 50), ("FATAL", 50), ("ERROR", 40), ("WARN", 30), ("WARNING", 30), ("INFO", 20),
   ("DEBUG", 10), ("NOTSET", 0)]

/-- The threshold of a name. -/
def threshold? (name : String) : Option Nat := thresholds.lookup name

end LogLevel

/-- A message and its severity. -/
structure LogLine where
  level : LogLevel
  message : String
deriving DecidableEq, Repr

end SlotEdit
