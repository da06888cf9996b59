import Quell.Report

/-!
# Batch — many files, each on its own

The files share nothing; a file that fails keeps its bytes and does not touch the others.
-/

namespace Quell

/-- A named buffer. -/
structure SourceFile where
  name : String
  contents : Bytes
  deriving DecidableEq

namespace Batch

/-- **The outcomes of all files**, in their order. -/
def outcomes (settings : Settings) (files : List SourceFile) : List Outcome :=
  files.map fun f => transformOrKeep settings f.contents

/-- The closing event. -/
def completeEvent (outcomes : List Outcome) : Event :=
  let changed := outcomes.countP (·.changed)
  let failed := outcomes.countP (·.failed)
  .named (if 0 < failed then "WARN" else "INFO")
    s!"batch complete: {outcomes.length} files, {changed} changed, {failed} failed"

/-- The events of a batch: those of each file, then the closing one. -/
def events (settings : Settings) (files : List SourceFile) : List Event :=
  let outcomes := outcomes settings files
  (files.zip outcomes).flatMap (fun (f, r) => r.events f.name) ++ [completeEvent outcomes]

/-- The reports on all files. -/
def reports (settings : Settings) (files : List SourceFile) : List Report :=
  (files.zip (outcomes settings files)).map fun (f, r) => Report.ofOutcome f.name f.contents r

end Batch

end Quell
