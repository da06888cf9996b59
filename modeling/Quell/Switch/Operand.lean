import Quell.Switch.Label
import Quell.Parameter
import Quell.Declaration.Local

/-!
# Switch/Operand — the declared type of a switch's operand

The operand is a variable, a member through `this`, or a cast.  A variable is looked up from its use
outwards: declarations before it in each scope, the parentheses before the scope, the parameters of
a function and the members of the class that a method belongs to.
-/

namespace Quell

/-- Why no enum is known for a switch. -/
inductive OperandFault where
  /-- A variable without a declaration. -/
  | undeclared (shown : String)
  /-- A member without a declaration. -/
  | undeclaredMember (shown : String)
  /-- An expression of another shape. -/
  | undetermined (shown : String)
  /-- Declared `auto`. -/
  | deduced
  /-- A pointer, or a type that has no name. -/
  | unnamed
  /-- A type that is no enum of the file. -/
  | notEnum (written : String)
  /-- A type name that several enums have. -/
  | several (written : String) (names : List String)
  deriving DecidableEq

/-- The wording of each cause. -/
def OperandFault.message : OperandFault → String
  | undeclared shown => s!"no declaration found for `{shown}`"
  | undeclaredMember shown => s!"no member declaration found for `{shown}`"
  | undetermined shown => s!"cannot determine the type of `{shown}`"
  | deduced => "switch operand declared `auto`"
  | unnamed => "switch operand has no nameable enum type"
  | notEnum written => s!"type `{written}` is not an enum declared in this file"
  | several written names =>
    s!"type `{written}` matches several enums: " ++ ", ".intercalate names

namespace Operand

/-! ## Declarations in one scope -/

/-- The types of the declarations of a name among tokens directly in a scope, outside parentheses
and brackets. -/
def declaredFrom (o : Outline) (floor : Nat) (name : String) :
    (depth : Int) → List Nat → List DeclaredType
  | _, [] => []
  | depth, i :: rest =>
    if o.code.has i (·.isMarkIn ["(", "["]) then declaredFrom o floor name (depth + 1) rest
    else if o.code.has i (·.isMarkIn [")", "]"]) then declaredFrom o floor name (depth - 1) rest
    else if depth = 0 && o.code.has i (fun t => t.isName && t.spells name) then
      match Declaration.declarationAt? o.code o.pairing i floor .statement with
      | some d => d.type :: declaredFrom o floor name depth rest
      | none => declaredFrom o floor name depth rest
    else declaredFrom o floor name depth rest

/-- The last declaration of a name directly in a scope and before a token. -/
def lastBefore? (o : Outline) (scope : Option Nat) (name : String) (limit : Nat) :
    Option DeclaredType :=
  (declaredFrom o (o.floor scope) name 0
    ((o.directTokens scope).takeWhile (· < limit))).getLast?

/-- The declaration of a member: the first one anywhere in a class. -/
def memberOf? (o : Outline) (cls : Nat) (name : String) : Option DeclaredType :=
  (declaredFrom o (o.floor (some cls)) name 0 (o.directTokens (some cls))).head?

/-- The declaration of a name in the parentheses that open at a token. -/
def inParens? (o : Outline) (name : String) (opening : Nat) : Option DeclaredType :=
  (Declaration.siteAt? o.code opening).bind fun site =>
    (o.pairing.partner opening).bind fun closing =>
      ((Slice.mk (opening + 1) closing).indices.filter fun i =>
          o.code.has i fun t => t.isName && t.spells name).findSome? fun i =>
        (Declaration.declarationAt? o.code o.pairing i (opening + 1) site).map (·.type)

/-- The declaration of a member in the first class of a given name that has one. -/
def inClasses? (o : Outline) (cls name : String) : Option DeclaredType :=
  (o.forest.toList.filter (·.kind == .classBody (some cls))).findSome? fun r =>
    memberOf? o r.id name

/-! ## Looking outwards -/

/-- The declaration of a name directly in a region, before `limit`; in a class order does not
matter, and an enum declares no variables. -/
def inRegion? (o : Outline) (name : String) (limit : Nat) (r : Region) : Option DeclaredType :=
  match r.kind with
  | .classBody _ => memberOf? o r.id name
  | .enumBody _ => none
  | _ => lastBefore? o (some r.id) name limit

/-- The declaration of a name in the parentheses just before a region. -/
def inHead? (o : Outline) (name : String) (r : Region) : Option DeclaredType :=
  if o.code.markBefore r.opening ")" then
    (o.pairing.partner (r.opening - 1)).bind (inParens? o name)
  else none

/-- The declaration of a name by a function: a parameter, or a member of the method's class. -/
def inFunction? (o : Outline) (name : String) (r : Region) : Option DeclaredType :=
  match r.kind with
  | .functionBody head =>
    ((o.parameters head).find? (·.name == some name)).map (·.type)
      <|> head.qualifier.getLast?.bind fun cls => inClasses? o cls name
  | _ => none

/-- Looks a name up through the regions around its use, innermost first. -/
def lookUp? (o : Outline) (name : String) : (limit : Nat) → List Region → Option DeclaredType
  | limit, [] => lastBefore? o none name limit
  | limit, r :: outer =>
    inRegion? o name limit r <|> inHead? o name r <|> inFunction? o name r
      <|> lookUp? o name r.opening outer

/-- The regions around a code token, innermost first. -/
def around (o : Outline) (i : Nat) : List Region :=
  match o.forest.innermost? i with
  | some r => o.forest.ancestors r.id
  | none => []

/-- **The declared type of the variable at a token.** -/
def varType? (o : Outline) (i : Nat) : Option DeclaredType :=
  lookUp? o (o.code.name i) i (around o i)

/-- Looks a member up through the regions around its use: in the class around it, or in that of the
method. -/
def lookUpMember? (o : Outline) (name : String) : List Region → Option DeclaredType
  | [] => none
  | r :: outer =>
    match r.kind with
    | .classBody _ => memberOf? o r.id name
    | .functionBody head =>
      match head.qualifier.getLast? with
      | some cls => inClasses? o cls name
      | none => lookUpMember? o name outer
    | _ => lookUpMember? o name outer

/-- The declared type of the member at a token. -/
def memberType? (o : Outline) (i : Nat) : Option DeclaredType :=
  lookUpMember? o (o.code.name i) (around o i)

/-! ## The shapes of an operand -/

/-- The `>` that closes template arguments, from token `i` on. -/
def angleClosing? (code : Code) (pairing : Pairing) (limit : Nat) :
    (fuel i depth : Nat) → Option Nat
  | 0, _, _ => none
  | fuel + 1, i, depth =>
    if limit ≤ i then none
    else if code.mark i "<" then angleClosing? code pairing limit fuel (i + 1) (depth + 1)
    else if code.mark i ">" then
      if depth - 1 = 0 then some i else angleClosing? code pairing limit fuel (i + 1) (depth - 1)
    else if code.mark i "(" then
      (pairing.partner i).bind fun closing =>
        angleClosing? code pairing limit fuel (closing + 1) depth
    else angleClosing? code pairing limit fuel (i + 1) depth

/-- The type of `static_cast<T>(expr)`. -/
def staticCast? (o : Outline) (s : Slice) : Option DeclaredType :=
  if 5 ≤ s.size && o.code.has s.start (·.isKeyword "static_cast")
      && o.code.mark (s.start + 1) "<" then
    (angleClosing? o.code o.pairing s.stop s.size (s.start + 1) 0).bind fun gt =>
      if gt + 1 < s.stop && o.code.mark (gt + 1) "("
          && o.pairing.partner (gt + 1) == some (s.stop - 1) then
        some (Declaration.typeOf o.code ⟨s.start + 2, gt⟩)
      else none
  else none

/-- A token of a type in a cast. -/
def isCastWord (t : Token) : Bool := t.isName || t.isMark "::" || t.kind == .keyword

/-- The type of `(T) expr`. -/
def plainCast? (o : Outline) (s : Slice) : Option DeclaredType :=
  if 4 ≤ s.size && o.code.mark s.start "(" then
    (o.pairing.partner s.start).bind fun closing =>
      let inner : Slice := ⟨s.start + 1, closing⟩
      if closing + 1 < s.stop && !inner.isEmpty && (o.code.slice inner).all isCastWord then
        some (Declaration.typeOf o.code inner)
      else none
  else none

/-- **The type of an operand**, or why it cannot be told. -/
def typeOf (o : Outline) (condition : Group) : Except OperandFault DeclaredType :=
  let inner := condition.inner
  let s := Label.stripParens o.code o.pairing inner.size inner
  let shown := o.code.spaced s
  if s.size = 1 && o.code.nameAt s.start then
    match varType? o s.start with
    | some type => .ok type
    | none => .error (.undeclared shown)
  else if s.size = 3 && o.code.has s.start (·.isKeyword "this") && o.code.mark (s.start + 1) "->"
      && o.code.nameAt (s.start + 2) then
    match memberType? o (s.start + 2) with
    | some type => .ok type
    | none => .error (.undeclaredMember shown)
  else match staticCast? o s <|> plainCast? o s with
    | some type => .ok type
    | none => .error (.undetermined shown)

end Operand

end Quell
