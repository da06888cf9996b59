/-!
# Bytes — source buffers as lists of bytes

A buffer is never decoded as a whole: all syntax that matters is ASCII, and every other byte is
copied.  Spellings in the program text are compared with buffers through `utf8`.
-/

namespace Quell

/-- A source buffer, or a stretch of one. -/
abbrev Bytes := List UInt8

/-- The UTF-8 encoding of a text. -/
def utf8 (s : String) : Bytes := s.toList.flatMap String.utf8EncodeChar

namespace Byte

/-! ## The bytes with a name -/

/-- Line feed. -/
@[match_pattern] abbrev newline : UInt8 := 10

/-- Carriage return. -/
@[match_pattern] abbrev carriage : UInt8 := 13

/-- The backslash that splices lines and escapes quotes. -/
@[match_pattern] abbrev backslash : UInt8 := 92

/-- The slash that opens comments. -/
@[match_pattern] abbrev slash : UInt8 := 47

/-- The star of a block comment. -/
@[match_pattern] abbrev star : UInt8 := 42

/-- The double quote. -/
@[match_pattern] abbrev quote : UInt8 := 34

/-- The single quote: character literals and digit separators. -/
@[match_pattern] abbrev tick : UInt8 := 39

/-- The hash that opens a directive. -/
@[match_pattern] abbrev hash : UInt8 := 35

/-- The full stop. -/
@[match_pattern] abbrev dot : UInt8 := 46

/-- The underscore. -/
@[match_pattern] abbrev underscore : UInt8 := 95

/-- The opening parenthesis that ends a raw string's delimiter. -/
@[match_pattern] abbrev paren : UInt8 := 40

/-- The space. -/
@[match_pattern] abbrev space : UInt8 := 32

/-- The horizontal tab. -/
@[match_pattern] abbrev tab : UInt8 := 9

/-! ## Classes of bytes -/

/-- `0` to `9`. -/
def isDigit (b : UInt8) : Bool := 48 ≤ b && b ≤ 57

/-- `A` to `Z`. -/
def isUpper (b : UInt8) : Bool := 65 ≤ b && b ≤ 90

/-- `a` to `z`. -/
def isLower (b : UInt8) : Bool := 97 ≤ b && b ≤ 122

/-- An ASCII letter or digit. -/
def isAlphanumeric (b : UInt8) : Bool := isDigit b || isUpper b || isLower b

/-- A byte that may open an identifier: a letter, `_`, `$`, or any byte outside ASCII. -/
def opensName (b : UInt8) : Bool :=
  isUpper b || isLower b || b == underscore || b == 36 || 128 ≤ b

/-- A byte that may continue an identifier. -/
def continuesName (b : UInt8) : Bool := opensName b || isDigit b

/-- A byte of indentation: space or tab. -/
def isBlank (b : UInt8) : Bool := b == space || b == tab

/-- A byte that separates tokens without ending a line: blank, carriage return, vertical tab or
form feed. -/
def isSpacing (b : UInt8) : Bool := isBlank b || b == carriage || b == 11 || b == 12

end Byte

namespace Bytes

/-- Index of the first occurrence of a pattern in a buffer. -/
def indexOf? (pattern : Bytes) : Bytes → Option Nat
  | [] => if pattern.isEmpty then some 0 else none
  | b :: rest =>
    if pattern.isPrefixOf (b :: rest) then some 0
    else (indexOf? pattern rest).map (· + 1)

end Bytes

end Quell
