import Quell.Code

/-!
# Declaration/Word — the words declarations are made of

The recognizers know no grammar: they match a few shapes over the code tokens, and the classes of
words here are all they ask for.  Backward scans are bounded by `lookback` tokens.
-/

namespace Quell.Declaration

/-- Bound on backward scans. -/
def lookback : Nat := 64

/-- Keywords that name a type, or part of one. -/
def typeWords : List String := [
  "auto", "bool", "char", "char8_t", "char16_t", "char32_t", "decltype", "double", "float",
  "int", "long", "short", "signed", "unsigned", "void", "wchar_t"]

/-- Keywords that may stand before the name in a local declaration. -/
def specifierWords : List String := [
  "auto", "bool", "char", "char8_t", "char16_t", "char32_t", "class", "const", "constexpr",
  "constinit", "double", "enum", "extern", "float", "inline", "int", "long", "mutable",
  "register", "short", "signed", "static", "struct", "thread_local", "typename", "union",
  "unsigned", "void", "volatile", "wchar_t"]

/-- A keyword that names a type. -/
def isTypeWord (t : Token) : Bool := t.isKeywordIn typeWords

/-- A keyword that may stand before the name in a local declaration. -/
def isSpecifier (t : Token) : Bool := t.isKeywordIn specifierWords

/-- A token that a type must hold one of: a name, a type keyword, or the end of template
arguments. -/
def bearsType (t : Token) : Bool := t.isName || isTypeWord t || t.isMark ">"

/-- A name in capitals, as annotation macros are spelled. -/
def isMacroLike (t : Token) : Bool :=
  t.isName && 1 < t.text.length && t.text.any Byte.isUpper && !t.text.any Byte.isLower

/-- The mark ends a statement or bounds a block. -/
def endsStatement (t : Token) : Bool := t.isMarkIn [";", "\x7b", "\x7d"]

/-! ## Template arguments, read backwards -/

/-- Looks below `i` and not below `floor` for the `<` that brings the nesting `depth` to zero. -/
def angleFrom? (code : Code) (floor : Nat) : (i : Nat) → (depth : Int) → Option Nat
  | 0, _ => none
  | i + 1, depth =>
    if i + 1 ≤ floor then none
    else if code.mark i ">" then angleFrom? code floor i (depth + 1)
    else if code.mark i "<" then
      if depth - 1 = 0 then some i else angleFrom? code floor i (depth - 1)
    else if code.has i endsStatement then none
    else angleFrom? code floor i depth

/-- **The `<` that matches the `>` at an index**, within `lookback` tokens and one statement. -/
def angleOpening? (code : Code) (gt : Nat) : Option Nat :=
  angleFrom? code (gt - lookback) (gt + 1) 0

/-! ## Qualified names, read backwards -/

/-- Start of the chain `a :: b :: …` whose last name stands at the index, not below `floor`. -/
def chainStart (code : Code) (floor : Nat) : Nat → Nat
  | s + 2 =>
    if floor ≤ s && code.mark (s + 1) "::" && code.nameAt s then chainStart code floor s else s + 2
  | s => s

end Quell.Declaration
