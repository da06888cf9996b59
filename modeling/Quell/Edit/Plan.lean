import Quell.Edit
import Quell.Settings
import Quell.Line
import Quell.Parameter.Usage
import Quell.Switch.Coverage

/-!
# Edit/Plan — the insertions that silence the findings

Inserted text follows the layout around it.  A function whose brace ends its line gets one discard
per line, indented like its first statement; a switch whose closing brace starts its line gets its
labels aligned with the last label.  Anything else gets text on one line.
-/

namespace Quell.Plan

/-- Text between texts. -/
def joinWith (separator : Bytes) (texts : List Bytes) : Bytes := separator.intercalate texts

/-- One level of indentation: a tab where the indentation beside it has tabs. -/
def unit (settings : Settings) (reference : Bytes) : Bytes :=
  if reference.contains Byte.tab then [Byte.tab]
  else List.replicate settings.format.indentWidth Byte.space

/-- The line ending of the buffer. -/
def newline (o : Outline) : Bytes := utf8 (Line.ending o.source).text

/-! ## Discards -/

/-- The indentation of a function's statements: that of the first one, else one level deeper than
the brace. -/
def bodyIndent (o : Outline) (settings : Settings) (r : Region) : Bytes :=
  if r.opening + 1 < r.closing then Line.indent o.source (o.code.offset (r.opening + 1))
  else
    let brace := Line.indent o.source r.start
    brace ++ unit settings brace

/-- The discards of a function, right after its opening brace. -/
def discardText (o : Outline) (settings : Settings) (r : Region) (statements : List Bytes) :
    Bytes :=
  if Line.ends o.source r.bodyOffset then
    statements.flatMap fun s => newline o ++ bodyIndent o settings r ++ s
  else
    let closed := (o.source[r.bodyOffset]?).any (!Byte.isBlank ·)
    Byte.space :: joinWith [Byte.space] statements ++ (if closed then [Byte.space] else [])

/-- The edit that discards a function's unused parameters. -/
def discardEdit? (o : Outline) (settings : Settings) (u : UnusedParams) : Option Edit :=
  (o.forest.get? u.region).map fun r =>
    let statements := u.params.map fun p =>
      settings.params.style.statement ((o.code[p.2]?.map (·.text)).getD [])
    { offset := r.bodyOffset
      text := discardText o settings r statements
      category := .unusedParamDiscard
      subjects := u.names }

/-! ## Labels -/

/-- The labels that a switch receives, and what the edit is for. -/
def labels (settings : Settings) (m : Omission) : List Bytes × Category :=
  match settings.switches.policy with
  | .byDefault => ([utf8 "default:"], .missingDefault)
  | .missingCases => (m.missing.map fun e => utf8 ("case " ++ m.caseLabel e ++ ":"), .missingCase)

/-- The indentation of labels: that of the last label, else one level deeper than the brace. -/
def labelIndent (o : Outline) (settings : Settings) (brace : Bytes) (m : Omission) : Bytes :=
  match m.lastLabel with
  | some keyword => Line.indent o.source (o.code.offset keyword)
  | none => brace ++ unit settings brace

/-- What brings the first label from the brace's indentation to its own. -/
def lead (brace indent unit : Bytes) : Bytes :=
  if brace.isPrefixOf indent then indent.drop brace.length else unit

/-- Labels on lines of their own, before a brace that starts its line. -/
def labelLines (o : Outline) (settings : Settings) (r : Region) (m : Omission)
    (labels : List Bytes) : Bytes :=
  let brace := Line.indent o.source r.closeOffset
  let indent := labelIndent o settings brace m
  let unit := unit settings indent
  lead brace indent unit ++ joinWith (newline o ++ indent) labels
    ++ newline o ++ indent ++ unit ++ utf8 "break;" ++ utf8 settings.commentMarker
    ++ newline o ++ brace

/-- Labels on the line of the brace. -/
def labelsInline (o : Outline) (settings : Settings) (r : Region) (labels : List Bytes) : Bytes :=
  let body := joinWith [Byte.space] labels ++ utf8 " break;" ++ utf8 settings.commentMarker
  if 0 < r.closeOffset && (o.source[r.closeOffset - 1]?).any Byte.isBlank then
    body ++ [Byte.space]
  else Byte.space :: body

/-- The edit that completes a switch, right before its closing brace. -/
def switchEdit? (o : Outline) (settings : Settings) (m : Omission) : Option Edit :=
  (o.forest.get? m.region).map fun r =>
    let (labels, category) := labels settings m
    { offset := r.closeOffset
      text :=
        if Line.starts o.source r.closeOffset then labelLines o settings r m labels
        else labelsInline o settings r labels
      category
      subjects := m.missing }

/-! ## The plan -/

/-- The edits for all findings, as they are found. -/
def draft (o : Outline) (settings : Settings) (unused : List UnusedParams)
    (omissions : List Omission) : List Edit :=
  (if settings.params.enabled then unused.filterMap (discardEdit? o settings) else [])
    ++ (if settings.switches.enabled then omissions.filterMap (switchEdit? o settings) else [])

/-- **The edits for all findings**, in order and checked. -/
def edits (o : Outline) (settings : Settings) (unused : List UnusedParams)
    (omissions : List Omission) : Except EditFault (List Edit) :=
  Edit.check o (draft o settings unused omissions)

end Quell.Plan
