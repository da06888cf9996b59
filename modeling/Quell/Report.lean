import Quell.Transform
import Quell.Digest
import Quell.Report.Json

/-!
# Report — what happened to each file, as text and as JSON
-/

namespace Quell

/-- One insertion at its position. -/
structure EditRecord where
  category : Category
  offset : Nat
  position : Position
  subjects : List String
  deriving DecidableEq

/-- What happened to one file. -/
structure Report where
  name : String
  changed : Bool
  failed : Bool
  /-- Digest of the input. -/
  inputDigest : String
  /-- Digest of the output; that of the input if nothing was inserted. -/
  outputDigest : String
  edits : List EditRecord
  diagnostics : List Diagnostic
  deriving DecidableEq

namespace Report

/-- The report on a file and its outcome. -/
def ofOutcome (name : String) (source : Bytes) (r : Outcome) : Report where
  name := name
  changed := r.changed
  failed := r.failed
  inputDigest := Digest.sha256 source
  outputDigest := Digest.sha256 r.output
  edits := r.edits.map fun e =>
    ⟨e.category, e.offset, (LineTable.ofSource source).position e.offset, e.subjects⟩
  diagnostics := r.diagnostics

/-! ## Plain text -/

/-- The word for what happened. -/
def status (r : Report) : String :=
  if r.failed then "failed" else if r.changed then "fixed" else "unchanged"

/-- The line for an insertion. -/
def editLine (e : EditRecord) : String :=
  s!"  {e.position.line}:{e.position.column}: {e.category.word} " ++ ", ".intercalate e.subjects
    ++ "\n"

/-- The lines for a file. -/
def plainBlock (r : Report) : String :=
  s!"{r.name}: {r.status} ({r.edits.length} edits)\n" ++ String.join (r.edits.map editLine)
    ++ String.join (r.diagnostics.map fun d => "  " ++ d.describe ++ "\n")

/-- **Reports as plain text**, one block per file. -/
def plain (reports : List Report) : String := String.join (reports.map plainBlock)

/-! ## JSON: the fields of every object stand in alphabetical order -/

/-- An insertion as JSON. -/
def editJson (e : EditRecord) : Json.Rendering :=
  Json.object [("category", Json.string e.category.word), ("column", Json.number e.position.column),
    ("line", Json.number e.position.line), ("offset", Json.number e.offset),
    ("subjects", Json.array (e.subjects.map Json.string))]

/-- A diagnostic as JSON. -/
def diagnosticJson (d : Diagnostic) : Json.Rendering :=
  Json.object [("code", Json.string d.code), ("column", Json.number d.position.column),
    ("line", Json.number d.position.line), ("message", Json.string d.message),
    ("offset", Json.number d.offset), ("severity", Json.string d.severity.word)]

/-- A report as JSON. -/
def fileJson (r : Report) : Json.Rendering :=
  Json.object [("changed", Json.boolean r.changed),
    ("diagnostics", Json.array (r.diagnostics.map diagnosticJson)),
    ("edits", Json.array (r.edits.map editJson)), ("failed", Json.boolean r.failed),
    ("input_sha256", Json.string r.inputDigest), ("name", Json.string r.name),
    ("output_sha256", Json.string r.outputDigest)]

/-- **Reports as JSON.** -/
def json (reports : List Report) : String :=
  Json.object [("files", Json.array (reports.map fileJson))] 0

end Report

end Quell
