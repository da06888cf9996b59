/-!
# Text/Segments — qualified names and their `::` separators

A qualified name is cut at `::` from the left (`pieces`); the parts that are not empty are its
`segments`.  `splitLast` cuts once, at the last separator.
-/

namespace Quell.Text

/-- Cuts at every `::`, leftmost first; `held` is the piece being read, reversed. -/
def piecesFrom (held : List Char) : List Char → List (List Char)
  | [] => [held.reverse]
  | ':' :: ':' :: rest => held.reverse :: piecesFrom [] rest
  | c :: rest => piecesFrom (c :: held) rest

/-- The pieces of a name between its `::` separators, empty ones included. -/
def pieces (name : String) : List String := (piecesFrom [] name.toList).map String.ofList

/-- **The segments of a qualified name**: its pieces that are not empty. -/
def segments (name : String) : List String := (pieces name).filter (!·.isEmpty)

/-- Cuts at the last `::`, if there is one. -/
def splitLastFrom : List Char → Option (List Char × List Char)
  | [] => none
  | c :: rest =>
    match splitLastFrom rest with
    | some (before, after) => some (c :: before, after)
    | none =>
      match c, rest with
      | ':', ':' :: after => some ([], after)
      | _, _ => none

/-- What stands before and after the last `::` of a name. -/
def splitLast (name : String) : Option (String × String) :=
  (splitLastFrom name.toList).map fun (before, after) => (String.ofList before, String.ofList after)

/-- The part of a name after its last `::`, or the whole name. -/
def lastPiece (name : String) : String := ((splitLast name).map (·.2)).getD name

/-- The name is written from the global scope: it starts with `::`. -/
def isRooted (name : String) : Bool := name.toList.take 2 == [':', ':']

/-- Joins segments back with `::`. -/
def qualified (segments : List String) : String := "::".intercalate segments

end Quell.Text
