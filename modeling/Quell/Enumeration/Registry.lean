import Quell.Enumeration

/-!
# Enumeration/Registry — which enum a written type name means

A written name matches every enum whose qualified name ends with its segments.  One match is the
answer; several are narrowed by the scope of the use, innermost first; what is still ambiguous is
reported, never guessed.
-/

namespace Quell

/-- The outcome of looking a written name up. -/
inductive Resolution where
  | found (e : Enumeration)
  | notFound
  /-- The qualified names of all matches. -/
  | ambiguous (names : List String)
  deriving DecidableEq

namespace Registry

/-- The enum has the written segments: as its last ones, or as all of them if the name is rooted. -/
def isNamed (rooted : Bool) (written : List String) (e : Enumeration) : Bool :=
  if rooted then e.segments == written else written.isSuffixOf e.segments

/-- The enums that a written name matches.  The last segment is compared with the last part of the
declared name, so a match by the scope alone is none. -/
def candidates (enums : List Enumeration) (rooted : Bool) (written : List String) :
    List Enumeration :=
  enums.filter fun e =>
    written.getLast? == some (Text.lastPiece e.name) && isNamed rooted written e

/-- The candidates declared in the innermost scope around the use that declares any. -/
def innermost (candidates : List Enumeration) (written useScope : List String) :
    List Enumeration :=
  let declaredIn (depth : Nat) :=
    candidates.filter fun e => e.segments == useScope.take depth ++ written
  (((List.range (useScope.length + 1)).reverse.map declaredIn).find? (!·.isEmpty)).getD []

/-- The first of several declarations that all list the same enumerators. -/
def agreed? : List Enumeration → Option Enumeration
  | [] => none
  | first :: rest =>
    if rest.all fun e => e.enumerators == first.enumerators then some first else none

/-- The first of several declarations of one and the same enum. -/
def repeated? : List Enumeration → Option Enumeration
  | [] => none
  | first :: rest =>
    if rest.all fun e => e.segments == first.segments && e.enumerators == first.enumerators then
      some first
    else none

/-- **Resolution of a written name** as seen from a scope, given outermost first. -/
def resolve (enums : List Enumeration) (written : String) (useScope : List String) : Resolution :=
  let segments := Text.segments written
  match candidates enums (Text.isRooted written) segments with
  | [] => .notFound
  | [only] => .found only
  | several =>
    match agreed? (innermost several segments useScope) <|> repeated? several with
    | some e => .found e
    | none => .ambiguous (several.map (·.qualifiedName))

end Registry

end Quell
