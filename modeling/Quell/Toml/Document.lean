import Quell.Toml.Scalar

/-!
# Toml/Document — reading a whole document

A document is a list of lines: blank ones, comments, headers, and keys with values.  Arrays and
tables in braces nest in values, less than `maxDepth` deep.
-/

namespace Quell.Toml

/-- Values nest less deep, and dotted keys have fewer parts. -/
def maxDepth : Nat := 80

/-! ## Keys -/

/-- A character of a key without quotes. -/
def isBare (c : Char) : Bool := c.isAlphanum || c == '_' || c == '-'

/-- One part of a key. -/
def keyPart? (cs : List Char) : Option (String × List Char) :=
  match cs with
  | '"' :: cs => (basic? (cs.length + 1) cs).map fun (s, cs) => (String.ofList s, cs)
  | '\'' :: cs => (literal? cs).map fun (s, cs) => (String.ofList s, cs)
  | cs =>
    let part := cs.takeWhile isBare
    if part.isEmpty then none else some (String.ofList part, cs.dropWhile isBare)

/-- The parts of a dotted key. -/
def keyParts? : (fuel : Nat) → List Char → Option (List String × List Char)
  | 0, _ => none
  | fuel + 1, cs =>
    (keyPart? (skipBlanks cs)).bind fun (part, cs) =>
      match skipBlanks cs with
      | '.' :: cs => (keyParts? fuel cs).map fun (parts, cs) => (part :: parts, cs)
      | cs => some ([part], cs)

/-- A key: the path of its table, and its last part. -/
def key? (cs : List Char) : Option ((List String × String) × List Char) :=
  (keyParts? (maxDepth - 1) cs).bind fun (parts, cs) =>
    parts.getLast?.map fun last => ((parts.dropLast, last), cs)

/-! ## Values -/

/-- Drops blanks, line ends and comments. -/
def skipTrivia : (inComment : Bool) → List Char → List Char
  | _, [] => []
  | _, '\r' :: '\n' :: cs => skipTrivia false cs
  | true, c :: cs =>
    if c == '\n' then skipTrivia false cs else if isPlain c then skipTrivia true cs else c :: cs
  | false, c :: cs =>
    if isBlank c || c == '\n' then skipTrivia false cs
    else if c == '#' then skipTrivia true cs
    else c :: cs

mutual

/-- A value at a depth of nesting. -/
def value? : (fuel depth : Nat) → List Char → Option (Toml × List Char)
  | 0, _, _ => none
  | fuel + 1, depth, cs =>
    match cs with
    | [] => none
    | '"' :: _ | '\'' :: _ => (string? cs).map fun (s, cs) => (.text (String.ofList s), cs)
    | '[' :: cs =>
      if depth + 1 < maxDepth then
        (items? fuel (depth + 1) cs).map fun (items, cs) => (.array items, cs)
      else none
    | '\x7b' :: cs =>
      if depth + 1 < maxDepth then
        match skipBlanks cs with
        | '\x7d' :: cs => some (.table .inline [], cs)
        | cs =>
          (fields? fuel (depth + 1) [] cs).map fun (entries, cs) => (.table .inline entries, cs)
      else none
    | cs => scalarValue? cs

/-- The items of an array up to its closing bracket; a comma may end them. -/
def items? : (fuel depth : Nat) → List Char → Option (List Toml × List Char)
  | 0, _, _ => none
  | fuel + 1, depth, cs =>
    match skipTrivia false cs with
    | ']' :: cs => some ([], cs)
    | cs =>
      (value? fuel depth cs).bind fun (item, cs) =>
        match skipTrivia false cs with
        | ']' :: cs => some ([item], cs)
        | ',' :: cs => (items? fuel depth cs).map fun (items, cs) => (item :: items, cs)
        | _ => none

/-- The fields of a table in braces up to its closing brace, added to those before. -/
def fields? : (fuel depth : Nat) → Entries → List Char → Option (Entries × List Char)
  | 0, _, _, _ => none
  | fuel + 1, depth, entries, cs =>
    (key? cs).bind fun ((path, key), cs) =>
      (char? '=' (skipBlanks cs)).bind fun cs =>
        (value? fuel depth (skipBlanks cs)).bind fun (value, cs) =>
          (put? entries path key value).bind fun entries =>
            match skipBlanks cs with
            | '\x7d' :: cs => some (entries, cs)
            | ',' :: cs => fields? fuel depth entries cs
            | _ => none

end

/-! ## Lines -/

/-- What follows the end of a line, after blanks and a comment. -/
def lineEnd? (cs : List Char) : Option (List Char) :=
  let cs := skipBlanks cs
  let cs := match cs with
    | '#' :: rest => rest.dropWhile isPlain
    | cs => cs
  match cs with
  | [] => some []
  | '\n' :: cs => some cs
  | '\r' :: '\n' :: cs => some cs
  | _ => none

/-- A document being read: its tables, and the header that is current. -/
structure Reading where
  root : Entries := []
  header : List String := []

/-- One line: nothing, a header, or a key with its value. -/
def line? (r : Reading) (cs : List Char) : Option (Reading × List Char) :=
  match skipBlanks cs with
  | [] => some (r, [])
  | '[' :: '[' :: cs => do
    let ((path, key), cs) ← key? cs
    let cs ← char? ']' cs
    let cs ← char? ']' cs
    let root ← openItem? r.root path key
    return (⟨root, path ++ [key]⟩, cs)
  | '[' :: cs => do
    let ((path, key), cs) ← key? cs
    let cs ← char? ']' cs
    let root ← openTable? r.root path key
    return (⟨root, path ++ [key]⟩, cs)
  | c :: cs =>
    if c == '#' || c == '\n' || c == '\r' then some (r, c :: cs)
    else do
      let ((path, key), cs) ← key? (c :: cs)
      let cs ← char? '=' (skipBlanks cs)
      let (value, cs) ← value? (2 * cs.length + 2) 0 (skipBlanks cs)
      let root ← putUnder? r.root r.header path key value
      return ({ r with root }, cs)

/-- All lines. -/
def lines? : (fuel : Nat) → Reading → List Char → Option Entries
  | 0, _, _ => none
  | fuel + 1, r, cs =>
    if cs.isEmpty then some r.root
    else
      (line? r cs).bind fun (r, cs) =>
        (lineEnd? cs).bind fun cs => lines? fuel r cs

/-- **The entries of a document**, if it is one.  A byte order mark at its start does not count. -/
def parse? (text : String) : Option Entries :=
  let cs := match text.toList with
    | '\uFEFF' :: cs => cs
    | cs => cs
  lines? (cs.length + 1) {} cs

end Quell.Toml
