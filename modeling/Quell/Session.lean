import Quell.Transform

/-!
# Session — a buffer edited step by step, with undo

The state is the buffer, the settings, and the edits that can be taken back, last first.  A step
that fails leaves the state as it is, except that `undo` forgets the edits it could not take back.
-/

namespace Quell

/-- An editing session. -/
structure Session where
  buffer : Bytes
  settings : Settings := {}
  /-- The edits that can be taken back, last first. -/
  undo : List (List Edit) := []
  deriving DecidableEq

namespace Session

/-- How taking edits back went. -/
inductive Undone where
  /-- There was nothing to take back. -/
  | nothing
  /-- The buffer is as it was before. -/
  | restored
  /-- The inserted texts are no longer there. -/
  | mismatch
  deriving DecidableEq

/-- Replaces the settings. -/
def configure (s : Session) (settings : Settings) : Session := { s with settings }

/-- Replaces the buffer only. -/
def load (s : Session) (buffer : Bytes) : Session := { s with buffer }

/-- Silences the warnings of the buffer. -/
def transform (s : Session) : Session × Outcome :=
  let r := transformOrKeep s.settings s.buffer
  ({ s with buffer := r.output, undo := if r.changed then r.edits :: s.undo else s.undo }, r)

/-- Puts edits in, in the given order. -/
def insert (s : Session) (edits : List Edit) : Except EditFault Session :=
  match Edit.apply s.buffer edits with
  | .error fault => .error fault
  | .ok buffer => .ok { s with buffer, undo := edits :: s.undo }

/-- **Takes the last edits back.** -/
def undoLast (s : Session) : Session × Undone :=
  match s.undo with
  | [] => (s, .nothing)
  | edits :: undo =>
    match Edit.revert s.buffer edits with
    | some buffer => ({ s with buffer, undo }, .restored)
    | none => ({ s with undo }, .mismatch)

end Session

end Quell
