import Quell.Declaration.Head

/-!
# Region — the brace pairs of a file and what they are

Every `{ ... }` is one region.  Its kind is decided by the tokens before its opening brace
(`Region/Classify`); the regions of a file nest, and `Region/Forest` holds them all.
-/

namespace Quell

/-- The head of an enum. -/
structure EnumHead where
  /-- The declared name; for `typedef enum { .. } Name;` the name after the brace. -/
  name : Option String
  /-- `enum class` or `enum struct`. -/
  isScoped : Bool
  deriving DecidableEq

/-- What a region is. -/
inductive RegionKind where
  | functionBody (head : FunctionHead)
  /-- The body of a switch, with the group of its controlling expression. -/
  | switchBody (condition : Group)
  | enumBody (head : EnumHead)
  /-- A statement block, a lambda body, an initializer, bare braces. -/
  | plain
  | namespaceBody (name : Option String)
  /-- The body of a class, struct or union. -/
  | classBody (name : Option String)
  /-- `extern "C" { ... }`. -/
  | linkage
  /-- A `catch` block of the function whose body is the given region. -/
  | handler (function : Nat)
  deriving DecidableEq

namespace RegionKind

/-- The short name of a kind. -/
def tag : RegionKind → String
  | functionBody _ => "function-body"
  | switchBody _ => "switch-body"
  | enumBody _ => "enum-body"
  | plain => "block"
  | namespaceBody _ => "namespace"
  | classBody _ => "class-body"
  | linkage => "linkage"
  | handler _ => "try-handler"

/-- Functions may be defined directly inside. -/
def admitsDefinitions : RegionKind → Bool
  | namespaceBody _ | classBody _ | linkage => true
  | _ => false

/-- The name a namespace or class gives to what is inside. -/
def scopeName? : RegionKind → Option String
  | namespaceBody name | classBody name => name
  | _ => none

/-- What a listing shows after the tag. -/
def detail : RegionKind → String
  | functionBody head => " " ++ head.name ++ (if head.isTry then " try" else "")
  | enumBody head => " " ++ head.name.getD "<anonymous>"
  | namespaceBody (some name) | classBody (some name) => " " ++ name
  | handler function => s!" of #{function}"
  | _ => ""

end RegionKind

/-- One brace pair. -/
structure Region where
  /-- The number of the region: regions are numbered by their opening braces. -/
  id : Nat
  kind : RegionKind
  /-- Code token of the opening brace. -/
  opening : Nat
  /-- Code token of the closing brace. -/
  closing : Nat
  /-- Byte offset of the opening brace. -/
  start : Nat
  /-- Byte offset one past the closing brace. -/
  stop : Nat
  /-- The region directly around this one. -/
  parent : Option Nat
  deriving DecidableEq

namespace Region

/-- Byte offset just after the opening brace. -/
def bodyOffset (r : Region) : Nat := r.start + 1

/-- Byte offset of the closing brace. -/
def closeOffset (r : Region) : Nat := r.stop - 1

/-- A code token stands strictly between the braces. -/
def contains (r : Region) (i : Nat) : Bool := r.opening < i && i < r.closing

/-- The tokens strictly between the braces. -/
def inner (r : Region) : Slice := ⟨r.opening + 1, r.closing⟩

end Region

end Quell
