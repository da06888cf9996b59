import Quell.Declaration.Type
import Quell.Pairing

/-!
# Declaration/Local — recognizing the declaration of a name where it stands

Whether a name is declared at its token depends on the `Site`: directly in a block, in the
parentheses of a control statement, or in those of a handler or lambda.  `declarationAt` accepts
one declarator after its type, and the later declarators of a list.
-/

namespace Quell

/-- Where a declaration may stand. -/
inductive Site where
  /-- Directly in a block. -/
  | statement
  /-- In the parentheses of `catch` or of a lambda. -/
  | parameter
  /-- In the parentheses of `for`, `if`, `while` or `switch`. -/
  | control
  deriving DecidableEq

/-- The marks that may follow a declared name. -/
def Site.closers : Site → List String
  | .statement => [";", "=", ",", "(", "\x7b", "[", ":"]
  | .parameter => [")", ",", "=", "["]
  | .control => ["=", ":", ";", "\x7b"]

/-- The declaration of a name. -/
structure LocalDecl where
  /-- First token of the type. -/
  start : Nat
  /-- Token of the name. -/
  name : Nat
  type : DeclaredType
  deriving DecidableEq

namespace Declaration

/-- What the parentheses that open at an index admit: nothing, if they are a call or a grouping. -/
def siteAt? (code : Code) (opening : Nat) : Option Site :=
  if code.hasBefore opening (·.isKeywordIn ["for", "if", "while", "switch"]) then some .control
  else if code.hasBefore opening fun t => t.isKeyword "catch" || t.isMark "]" then some .parameter
  else none

/-- The type before index `k`, read backwards and not below `limit`, inside `angle` template
brackets: where it starts. -/
def typeStartFrom? (code : Code) (limit : Nat) : (k angle : Nat) → Option Nat
  | 0, angle => if angle = 0 then some 0 else none
  | k + 1, angle =>
    if k + 1 ≤ limit then if angle = 0 then some (k + 1) else none
    else if 0 < angle then
      if code.mark k "<" then typeStartFrom? code limit k (angle - 1)
      else if code.mark k ">" then typeStartFrom? code limit k (angle + 1)
      else if code.has k endsStatement then none
      else typeStartFrom? code limit k angle
    else if code.mark k ">" then typeStartFrom? code limit k 1
    else if code.has k fun t =>
        t.isName || isSpecifier t || t.isMarkIn ["::", "*", "&", "..."] then
      typeStartFrom? code limit k 0
    else some (k + 1)

/-- Start of the tokens before a name that could be its type. -/
def typeStart? (code : Code) (floor name : Nat) : Option Nat :=
  typeStartFrom? code (max (name - lookback) floor) name 0

/-- The run is a type: it holds a word that bears one and does not end in `::`. -/
def isType (code : Code) (s : Slice) : Bool :=
  !s.isEmpty && (code.slice s).any bearsType && !code.markBefore s.stop "::"

/-- A declaration may start at `k`: it is the first token of the scope, or follows a mark that ends
what came before. -/
def atBoundary (code : Code) (floor k : Nat) : Bool :=
  k == floor || code.hasBefore k (·.isMarkIn [";", "\x7b", "\x7d", ":", ",", "("])

/-- Start of the statement before `k`, passing over bracketed groups; gives up when the fuel is
spent. -/
def statementStart? (code : Code) (pairing : Pairing) (floor : Nat) : (fuel k : Nat) → Option Nat
  | fuel, k =>
    if k ≤ floor then some k
    else match fuel with
      | 0 => none
      | fuel + 1 =>
        if code.hasBefore k (·.isMarkIn [";", "\x7b", "\x7d", ":"]) then some k
        else if code.hasBefore k (·.isMarkIn [")", "]"]) then
          match pairing.partner (k - 1) with
          | some opening => statementStart? code pairing floor fuel opening
          | none => none
        else statementStart? code pairing floor fuel (k - 1)

/-- The first declarator of a declaration that starts at `start`, among the tokens before `stop`. -/
def firstDeclarator? (code : Code) (floor start stop : Nat) : Option Nat :=
  (Slice.mk start stop).indices.find? fun j =>
    code.nameAt j
      && code.has (j + 1) (·.isMarkIn [";", "=", ",", "(", "\x7b", "["])
      && typeStart? code floor j == some start
      && isType code ⟨start, j⟩

/-- A later declarator of a list, `int a = 1, *b, name;`.  The list's pointers are its own: after
`int *a, b` nothing is known of the type of `b`. -/
def laterDeclarator? (code : Code) (pairing : Pairing) (floor name : Nat) : Option LocalDecl :=
  let p := code.runStart floor (·.isMarkIn ["*", "&"]) name
  if p == floor || !code.markBefore p "," then none
  else
    (statementStart? code pairing floor (lookback * 4) (p - 1)).bind fun start =>
      (firstDeclarator? code floor start (p - 1)).map fun first =>
        let type :=
          if p < name then .pointer
          else match typeOf code ⟨start, first⟩ with
            | .pointer => .unknown
            | type => type
        ⟨start, name, type⟩

/-- **The declaration of the name at an index**, if it is declared there.  `floor` is the first
token of the enclosing scope; no type reaches below it. -/
def declarationAt? (code : Code) (pairing : Pairing) (name floor : Nat) (site : Site) :
    Option LocalDecl :=
  if !code.nameAt name || name < floor then none
  else if code.hasBefore name (·.isMarkIn [".", "->", "::"]) then none
  else if !code.has (name + 1) (·.isMarkIn site.closers) then none
  else
    match typeStart? code floor name with
    | none => none
    | some start =>
      if isType code ⟨start, name⟩ && atBoundary code floor start then
        some ⟨start, name, typeOf code ⟨start, name⟩⟩
      else if site == .statement then laterDeclarator? code pairing floor name
      else none

end Declaration

end Quell
