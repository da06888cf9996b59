/-!
# Fault — what can go wrong with a buffer, and how it is worded

Every stage has causes of its own; here they come together in one taxonomy of five entries, each
with a stable code.  All are fatal for the buffer except an operand type that cannot be told, which
only leaves one switch alone.
-/

namespace Quell

/-- The reportable form of every failure: its place, if it has one, and its message. -/
inductive Fault where
  /-- A comment or literal that does not end. -/
  | lexical (offset : Nat) (message : String)
  /-- A bracket without its partner. -/
  | structural (offset : Nat) (message : String)
  /-- A switch operand that cannot be tied to one known enum. -/
  | ambiguousType (offset : Nat) (message : String)
  /-- A set of edits that cannot be applied. -/
  | overlappingEdit (offset : Nat) (message : String)
  /-- Settings that would produce malformed insertions. -/
  | settings (message : String)
  deriving DecidableEq

/-- How much a diagnostic weighs. -/
inductive Severity where
  /-- The buffer is left alone. -/
  | error
  /-- One fix is left out. -/
  | warning
  deriving DecidableEq

/-- The word for a severity. -/
def Severity.word : Severity → String
  | .error => "error"
  | .warning => "warning"

namespace Fault

/-- The byte offset a fault points at. -/
def offset? : Fault → Option Nat
  | lexical offset _ | structural offset _ | ambiguousType offset _ | overlappingEdit offset _ =>
    some offset
  | settings _ => none

/-- The message without its place. -/
def message : Fault → String
  | lexical _ message | structural _ message | ambiguousType _ message
  | overlappingEdit _ message | settings message => message

/-- The stable code of the taxonomy entry. -/
def code : Fault → String
  | lexical .. => "lex_error"
  | structural .. => "structural_error"
  | ambiguousType .. => "ambiguous_type"
  | overlappingEdit .. => "overlapping_edit"
  | settings _ => "config_error"

/-- The fault leaves the whole buffer alone. -/
def isFatal : Fault → Bool
  | ambiguousType .. => false
  | _ => true

/-- The severity of the diagnostic a fault becomes. -/
def severity (f : Fault) : Severity := if f.isFatal then .error else .warning

/-- **The full text of a fault**: kind, place, message. -/
def describe : Fault → String
  | lexical offset message => s!"lex error at byte {offset}: {message}"
  | structural offset message => s!"structural error at byte {offset}: {message}"
  | ambiguousType offset message => s!"ambiguous switch type at byte {offset}: {message}"
  | overlappingEdit offset message => s!"overlapping edit at byte {offset}: {message}"
  | settings message => s!"config error: {message}"

end Fault

end Quell
