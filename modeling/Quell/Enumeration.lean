import Quell.Outline
import Quell.Declaration.Pieces

/-!
# Enumeration — the enums that a file declares

Every enum with a body and a name; nothing can switch on an enum without one.
-/

namespace Quell

/-- An enum and its enumerators. -/
structure Enumeration where
  /-- The name as declared. -/
  name : String
  /-- The enclosing namespaces and classes that have a name, outermost first. -/
  scope : List String
  /-- The enumerators, each once, in order of first occurrence. -/
  enumerators : List String
  /-- `enum class` or `enum struct`. -/
  isScoped : Bool
  /-- The region of the body. -/
  region : Nat
  deriving DecidableEq

namespace Enumeration

/-- The segments of the scope and of the name. -/
def segments (e : Enumeration) : List String :=
  (e.scope ++ Text.pieces e.name).filter (!·.isEmpty)

/-- The fully qualified name. -/
def qualifiedName (e : Enumeration) : String := Text.qualified e.segments

/-- A scope path cut into segments: a namespace `a::b` counts as two. -/
def flatten (path : List String) : List String := path.flatMap Text.segments

/-- The enumerator that one piece of an enum's body declares: the name after its attributes. -/
def enumerator? (o : Outline) (s : Slice) : Option String :=
  let k := Declaration.skipAttributes o.code o.pairing s.stop o.code.size s.start
  if k < s.stop && o.code.nameAt k then some (o.code.name k) else none

/-- The enumerators of a body. -/
def enumeratorsIn (o : Outline) (body : Slice) : List String :=
  ((Declaration.pieces o.code false body).filterMap (enumerator? o)).eraseDups

/-- The enum whose body is a region, if it is one and has a name. -/
def ofRegion? (o : Outline) (r : Region) : Option Enumeration :=
  match r.kind with
  | .enumBody ⟨some name, isScoped⟩ =>
    some ⟨name, flatten (o.forest.scopePath r.parent), enumeratorsIn o r.inner, isScoped, r.id⟩
  | _ => none

end Enumeration

/-- **The enums of a file**, in order. -/
def Outline.enumerations (o : Outline) : List Enumeration :=
  o.forest.toList.filterMap (Enumeration.ofRegion? o)

end Quell
