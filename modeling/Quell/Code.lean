import Quell.Token

/-!
# Code — the tokens that are code, addressed by index

Comments and directives are filtered out once; every later stage speaks of *code tokens* by their
index.  Looking outside the buffer is no error: no token stands there, so no test of one succeeds.
Half-open runs of code tokens are `Slice`s, bracketed groups are `Group`s.
-/

namespace Quell

/-- The code tokens of a buffer. -/
abbrev Code := Array Token

/-- A half-open run of code-token indices. -/
structure Slice where
  start : Nat
  stop : Nat
  deriving DecidableEq

namespace Slice

/-- Number of tokens in the run. -/
def size (s : Slice) : Nat := s.stop - s.start

/-- The run holds no token. -/
def isEmpty (s : Slice) : Bool := s.stop ≤ s.start

/-- The indices of the run, in order. -/
def indices (s : Slice) : List Nat := List.range' s.start s.size

end Slice

/-- A bracketed group, by the indices of its two brackets. -/
structure Group where
  opening : Nat
  closing : Nat
  deriving DecidableEq

namespace Group

/-- The tokens strictly between the brackets. -/
def inner (g : Group) : Slice := ⟨g.opening + 1, g.closing⟩

/-- Nothing stands between the brackets. -/
def isEmpty (g : Group) : Bool := g.closing == g.opening + 1

end Group

namespace Code

/-- The code tokens among all tokens. -/
def ofTokens (tokens : List Token) : Code := (tokens.filter (!·.isTrivia)).toArray

/-! ## Tests at an index -/

/-- The token at an index exists and passes a test. -/
@[inline] def has (code : Code) (i : Nat) (test : Token → Bool) : Bool := code[i]?.any test

/-- The token just before an index exists and passes a test. -/
@[inline] def hasBefore (code : Code) (i : Nat) (test : Token → Bool) : Bool :=
  match i with
  | 0 => false
  | i + 1 => code.has i test

/-- The mark `word` stands at an index. -/
@[inline] def mark (code : Code) (i : Nat) (word : String) : Bool := code.has i (·.isMark word)

/-- The mark `word` stands just before an index. -/
@[inline] def markBefore (code : Code) (i : Nat) (word : String) : Bool :=
  code.hasBefore i (·.isMark word)

/-- The keyword `word` stands just before an index. -/
@[inline] def keywordBefore (code : Code) (i : Nat) (word : String) : Bool :=
  code.hasBefore i (·.isKeyword word)

/-- An identifier stands at an index. -/
def nameAt (code : Code) (i : Nat) : Bool := code.has i (·.isName)

/-- An identifier stands just before an index. -/
def nameBefore (code : Code) (i : Nat) : Bool := code.hasBefore i (·.isName)

/-- The name at an index; nothing outside the buffer. -/
def name (code : Code) (i : Nat) : String := (code[i]?.map (·.name)).getD ""

/-- Byte offset of the token at an index. -/
def offset (code : Code) (i : Nat) : Nat := (code[i]?.map (·.start)).getD 0

/-! ## Runs of tokens -/

/-- The tokens of a run. -/
def slice (code : Code) (s : Slice) : List Token := (code.extract s.start s.stop).toList

/-- Start of the run of tokens that pass a test and end just before `k`, not reaching below
`limit`. -/
def runStart (code : Code) (limit : Nat) (test : Token → Bool) : (k : Nat) → Nat
  | 0 => 0
  | k + 1 => if limit < k + 1 && code.has k test then runStart code limit test k else k + 1

/-- The names of a run joined without separators: `Foo :: bar` gives `Foo::bar`. -/
def joined (code : Code) (s : Slice) : String := String.join ((code.slice s).map (·.name))

/-- The names of a run joined by single spaces. -/
def spaced (code : Code) (s : Slice) : String := " ".intercalate ((code.slice s).map (·.name))

end Code

end Quell
