import Quell.Text.Capital

/-!
# Event — what a run reports about itself

Events are values: a level and named texts.  A run returns its events in the order they happen.
-/

namespace Quell

/-- How important an event is. -/
inductive Level where
  | debug
  | info
  | warn
  | error
  deriving DecidableEq

/-- The word for a level. -/
def Level.word : Level → String
  | .debug => "DEBUG"
  | .info => "INFO"
  | .warn => "WARN"
  | .error => "ERROR"

/-- One event: named texts, the message under `message`. -/
structure Event where
  level : Level
  fields : List (String × String)
  deriving DecidableEq

namespace Event

/-- An event with a message and details. -/
def message (level : Level) (text : String) (details : List (String × String)) : Event :=
  ⟨level, ("message", text) :: details⟩

/-- An event that is a detail alone. -/
def note (level : Level) (detail : String) : Event := ⟨level, [("detail", detail)]⟩

/-- The level of an event under a name: `error`, `warn` and `warning` in any case pick theirs. -/
def levelOf (name : String) : Level :=
  if Text.readsAs name "ERROR" then .error
  else if Text.readsAs name "WARN" || Text.readsAs name "WARNING" then .warn
  else .info

/-- An event under a name, which picks the level. -/
def named (name detail : String) : Event := ⟨levelOf name, [("event", name), ("detail", detail)]⟩

end Event

end Quell
