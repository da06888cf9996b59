import Quell.Fault
import Quell.Line

/-!
# Diagnostic — faults with their position in a buffer
-/

namespace Quell

/-- A fault as reported to the user: positioned, with severity and code. -/
structure Diagnostic where
  offset : Nat
  position : Position
  severity : Severity
  code : String
  message : String
  deriving DecidableEq

namespace Diagnostic

/-- The diagnostic kept the buffer from being changed. -/
def isError (d : Diagnostic) : Bool := d.severity == .error

/-- One line: position, severity, code, message. -/
def describe (d : Diagnostic) : String :=
  s!"{d.position.line}:{d.position.column}: {d.severity.word}[{d.code}]: {d.message}"

end Diagnostic

/-- The diagnostic of a fault; one without a place points at the start of the buffer. -/
def Fault.diagnostic (f : Fault) (lines : LineTable) : Diagnostic where
  offset := f.offset?.getD 0
  position := lines.position (f.offset?.getD 0)
  severity := f.severity
  code := f.code
  message := f.message

end Quell
