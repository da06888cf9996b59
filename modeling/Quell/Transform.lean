import Quell.Edit.Plan
import Quell.Diagnostic
import Quell.Event
import Quell.Text.Quoted

/-!
# Transform — from a buffer to the buffer with its warnings silenced

    bytes ──▸ tokens ──▸ outline ──▸ findings ──▸ edits ──▸ bytes

Nothing is kept between runs.  A fault in the settings, the tokens or the brackets leaves the buffer
alone; a switch whose enum is not known only misses its fix, and is reported as a warning.
-/

namespace Quell

/-- What a file shows to be fixed. -/
structure Findings where
  enums : List Enumeration
  unused : List UnusedParams
  coverage : Coverage
  deriving DecidableEq

/-- **The findings in a file**; what the settings turn off is not looked for. -/
def Outline.findings (o : Outline) (settings : Settings) : Findings where
  enums := o.enumerations
  unused := if settings.params.enabled then o.unusedParams else []
  coverage := if settings.switches.enabled then o.coverage o.enumerations else ⟨[]⟩

/-- A buffer with its warnings silenced. -/
structure Transformed where
  output : Bytes
  /-- The insertions, in order. -/
  edits : List Edit
  warnings : List Diagnostic
  deriving DecidableEq

/-- Something was inserted. -/
def Transformed.changed (t : Transformed) : Bool := !t.edits.isEmpty

namespace Transform

/-- The outline of a buffer, unless the settings cannot be used. -/
def outline (settings : Settings) (source : Bytes) : Except Fault Outline :=
  match settings.check with
  | .error fault => .error fault.fault
  | .ok _ => Outline.ofSource source

/-- The edits for a file, and the file with them put in. -/
def applied (o : Outline) (settings : Settings) (f : Findings) :
    Except EditFault (List Edit × Bytes) :=
  match Plan.edits o settings f.unused f.coverage.omissions with
  | .error fault => .error fault
  | .ok edits =>
    match Edit.apply o.source edits with
    | .error fault => .error fault
    | .ok output => .ok (edits, output)

/-- The diagnostics of faults, in order. -/
def diagnostics (source : Bytes) (faults : List Fault) : List Diagnostic :=
  faults.map (·.diagnostic (LineTable.ofSource source))

end Transform

/-- **Silences the warnings of a buffer.**  On failure the diagnostics end with the fatal one. -/
def transform (settings : Settings) (source : Bytes) : Except (List Diagnostic) Transformed :=
  match Transform.outline settings source with
  | .error fault => .error (Transform.diagnostics source [fault])
  | .ok o =>
    let findings := o.findings settings
    let warnings := findings.coverage.warnings o
    match Transform.applied o settings findings with
    | .error fault => .error (Transform.diagnostics source (warnings ++ [fault.fault]))
    | .ok (edits, output) => .ok ⟨output, edits, Transform.diagnostics source warnings⟩

/-- The result for a file that is kept as it is when it cannot be transformed. -/
structure Outcome where
  output : Bytes
  edits : List Edit
  diagnostics : List Diagnostic
  failed : Bool
  deriving DecidableEq

/-- Something was inserted. -/
def Outcome.changed (r : Outcome) : Bool := !r.edits.isEmpty

/-- **Silences the warnings of a buffer, or keeps it.** -/
def transformOrKeep (settings : Settings) (source : Bytes) : Outcome :=
  match transform settings source with
  | .ok t => ⟨t.output, t.edits, t.warnings, false⟩
  | .error diagnostics => ⟨source, [], diagnostics, true⟩

/-! ## Events -/

namespace Transform

/-- An offset that may be missing. -/
def optional : Option Nat → String
  | none => "None"
  | some n => s!"Some({n})"

/-- The run ends with a fault. -/
def aborted (fault : Fault) : Event :=
  .message .error ("transform aborted: " ++ fault.describe)
    [("code", fault.code), ("offset", optional fault.offset?)]

/-- The tokens have been read. -/
def lexedEvent (tokens : List Token) : Event :=
  .message .debug "lexed" [("tokens", toString tokens.length)]

/-- The outline is known. -/
def outlinedEvent (o : Outline) : Event :=
  .message .debug "indexed source" [("tokens", toString o.tokens.length),
    ("code_tokens", toString o.code.size), ("regions", toString o.forest.size)]

/-- The findings: enums, unused parameters, switches over enums, switches left alone. -/
def findingEvents (o : Outline) (f : Findings) : List Event :=
  .message .debug "enums registered" [("enums", toString f.enums.length)]
    :: f.unused.map (fun u => .message .debug "unused parameters"
        [("function", u.function), ("params", Text.quotedList u.names)])
    ++ f.coverage.resolved.map (fun (name, missing) => .message .debug "switch coverage"
        [("enum_name", name), ("missing", toString missing)])
    ++ (f.coverage.warnings o).map (fun w => .message .warn ("switch skipped: " ++ w.describe)
        [("offset", optional w.offset?)])

/-- The edits are planned. -/
def plannedEvent (edits : List Edit) : Event :=
  .message .debug "planned edits" [("edits", toString edits.length)]

/-- The run is complete. -/
def completeEvent (o : Outline) (f : Findings) (edits : List Edit) : Event :=
  .message .info "transform complete" [("bytes", toString o.source.length),
    ("edits", toString edits.length), ("warnings", toString (f.coverage.warnings o).length)]

/-- The events after the tokens have been read. -/
def outlineEvents (settings : Settings) (source : Bytes) (tokens : List Token) : List Event :=
  match Outline.ofTokens source tokens with
  | .error fault => [aborted fault.fault]
  | .ok o =>
    let findings := o.findings settings
    outlinedEvent o :: findingEvents o findings
      ++ match Plan.edits o settings findings.unused findings.coverage.omissions with
        | .error fault => [aborted fault.fault]
        | .ok edits =>
          plannedEvent edits :: match Edit.apply source edits with
            | .error fault => [aborted fault.fault]
            | .ok _ => [completeEvent o findings edits]

/-- **The events of a run**, in order. -/
def events (settings : Settings) (source : Bytes) : List Event :=
  match settings.check with
  | .error fault => [aborted fault.fault]
  | .ok _ =>
    match tokenize source with
    | .error fault => [aborted fault.fault]
    | .ok tokens => lexedEvent tokens :: outlineEvents settings source tokens

end Transform

/-- The events about the outcome of a file: an error if it was kept, else a warning per diagnostic
and the number of insertions. -/
def Outcome.events (r : Outcome) (name : String) : List Event :=
  if r.failed then
    let reason := ((r.diagnostics.reverse.find? (·.isError)).map (·.describe)).getD ""
    [.note .error (name ++ ": left unchanged: " ++ reason)]
  else
    (r.diagnostics.filter (!·.isError)).map (fun d => .note .warn (name ++ ":" ++ d.describe))
      ++ if r.changed then [.note .info s!"{name}: {r.edits.length} edits"] else []

end Quell
