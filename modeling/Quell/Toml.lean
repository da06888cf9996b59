/-!
# Toml — TOML values, and how a document's tables come together

A table remembers how it came to be, since that decides what may be added to it later: a table
under a header of its own is complete, one that a longer header implied may still get its header,
and one that dotted keys opened takes further dotted keys only.
-/

namespace Quell

/-- How a table came to be. -/
inductive Origin where
  /-- Under its own header, or the document itself. -/
  | header
  /-- On the way to the table of a longer header. -/
  | implied
  /-- On the way of a dotted key. -/
  | dotted
  /-- Written between braces. -/
  | inline
  deriving DecidableEq

/-- A TOML value. -/
inductive Toml where
  | text (s : String)
  | integer (n : Int)
  | float
  | boolean (b : Bool)
  /-- A date, a time, or both. -/
  | moment
  | array (items : List Toml)
  | table (origin : Origin) (entries : List (String × Toml))
  /-- An array of tables, each under a header of its own. -/
  | tables (items : List (List (String × Toml)))

namespace Toml

/-- The entries of a table. -/
abbrev Entries := List (String × Toml)

/-- The value under a key. -/
def find? (entries : Entries) (key : String) : Option Toml := (entries.find? (·.1 == key)).map (·.2)

/-- Replaces the value under a key. -/
def replace (entries : Entries) (key : String) (value : Toml) : Entries :=
  entries.map fun (k, v) => if k == key then (k, value) else (k, v)

/-- Adds a value under a key that is free. -/
def add? (entries : Entries) (key : String) (value : Toml) : Option Entries :=
  match find? entries key with
  | some _ => none
  | none => some (entries ++ [(key, value)])

/-- **Changes the table at a path.**  Tables on the way are opened with the given origin; a dotted
key does not enter a table that has a header; nothing enters a value or a table in braces. -/
def changeAt (opened : Origin) (change : Origin → Entries → Option Entries) :
    (path : List String) → Origin → Entries → Option Entries
  | [], origin, entries => change origin entries
  | key :: path, _, entries =>
    match find? entries key with
    | none =>
      (changeAt opened change path opened []).map fun inner =>
        entries ++ [(key, .table opened inner)]
    | some (.table .inline _) => none
    | some (.table origin inner) =>
      if opened == .dotted && origin == .header then none
      else
        (changeAt opened change path origin inner).map fun inner =>
          replace entries key (.table origin inner)
    | some (.tables items) =>
      match items.getLast? with
      | none => none
      | some last =>
        (changeAt opened change path .header last).map fun inner =>
          replace entries key (.tables (items.dropLast ++ [inner]))
    | some _ => none

/-- Puts a value under a key, dotted or not, of a table.  A dotted key adds only
to a table that dotted keys opened. -/
def put? (entries : Entries) (path : List String) (key : String) (value : Toml) : Option Entries :=
  changeAt .dotted (fun origin inner =>
      if (origin == .dotted) == path.isEmpty then none else add? inner key value)
    path .header entries

/-- Puts a value in a document under the header `header`. -/
def putUnder? (document : Entries) (header path : List String) (key : String) (value : Toml) :
    Option Entries :=
  changeAt .implied (fun _ inner => put? inner path key value) header .header document

/-- Opens the table of a header: one that is new, or that was only implied. -/
def openTable? (document : Entries) (path : List String) (key : String) : Option Entries :=
  changeAt .implied (fun _ inner =>
      match find? inner key with
      | none => some (inner ++ [(key, .table .header [])])
      | some (.table .implied entries) => some (replace inner key (.table .header entries))
      | some _ => none)
    path .header document

/-- Opens the next table of an array of tables. -/
def openItem? (document : Entries) (path : List String) (key : String) : Option Entries :=
  changeAt .implied (fun _ inner =>
      match find? inner key with
      | none => some (inner ++ [(key, .tables [[]])])
      | some (.tables items) => some (replace inner key (.tables (items ++ [[]])))
      | some _ => none)
    path .header document

end Toml

end Quell
