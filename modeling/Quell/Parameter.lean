import Quell.Outline
import Quell.Declaration.Pieces

/-!
# Parameter — the parameters of a function definition
-/

namespace Quell

/-- One declared parameter. -/
structure Parameter where
  /-- The declared name, if there is one. -/
  name : Option String
  /-- Code token of the name. -/
  token : Option Nat
  /-- Byte offset of the first token. -/
  offset : Nat
  /-- The tokens of the type, separated by spaces. -/
  typeText : String
  type : DeclaredType
  /-- Marked as possibly unused. -/
  maybeUnused : Bool
  deriving DecidableEq

namespace Parameter

/-- The parameter may be reported as unused: it has a name and no mark. -/
def isCandidate (p : Parameter) : Bool := p.name.isSome && !p.maybeUnused

/-- The parameter that one piece of a parameter list declares. -/
def ofPiece (o : Outline) (piece : Slice) : Parameter :=
  let parts := Declaration.parameter o.code o.pairing piece
  { name := parts.name.map o.code.name
    token := parts.name
    offset := o.code.offset piece.start
    typeText := o.code.spaced ⟨parts.decl.start, parts.name.getD parts.decl.stop⟩
    type := parts.type
    maybeUnused := parts.maybeUnused }

end Parameter

/-- **The parameters of a function**, in order. -/
def Outline.parameters (o : Outline) (head : FunctionHead) : List Parameter :=
  (Declaration.pieces o.code true head.params.inner).map (Parameter.ofPiece o)

end Quell
