import Quell.Text.Utf8

/-!
# Token — the lexical units of a C++ buffer

A token keeps its exact bytes and the offset of the first of them; where it ends follows.  Comments
and directives are *trivia*: they stay in the stream, and no later stage looks inside them.
-/

namespace Quell

/-- The lexical classes. -/
inductive Kind where
  | identifier
  | keyword
  | punctuation
  /-- A number, string or character literal, its encoding mark and suffix included. -/
  | literal
  | comment
  /-- A whole preprocessor line, its continuation lines included. -/
  | directive
  deriving DecidableEq

/-- A stretch of the buffer with its lexical class. -/
structure Token where
  kind : Kind
  text : Bytes
  /-- Byte offset of the first byte. -/
  start : Nat
  deriving DecidableEq

namespace Token

/-- Byte offset one past the last byte. -/
def stop (t : Token) : Nat := t.start + t.text.length

/-- The token has exactly this spelling. -/
@[inline] def spells (t : Token) (word : String) : Bool := t.text == utf8 word

/-- A punctuation token with this spelling. -/
@[inline] def isMark (t : Token) (word : String) : Bool := t.kind == .punctuation && t.spells word

/-- A punctuation token with one of these spellings. -/
def isMarkIn (t : Token) (words : List String) : Bool :=
  t.kind == .punctuation && words.any fun w => t.spells w

/-- A keyword token with this spelling. -/
@[inline] def isKeyword (t : Token) (word : String) : Bool := t.kind == .keyword && t.spells word

/-- A keyword token with one of these spellings. -/
def isKeywordIn (t : Token) (words : List String) : Bool :=
  t.kind == .keyword && words.any fun w => t.spells w

/-- An identifier. -/
def isName (t : Token) : Bool := t.kind == .identifier

/-- A comment or a directive. -/
def isTrivia (t : Token) : Bool := t.kind == .comment || t.kind == .directive

/-- **The name of a token**: its text made legible.  Names are compared in this form. -/
def name (t : Token) : String := Utf8.legible t.text

end Token

/-- The reserved words: none of them names a variable, a parameter or an enumerator. -/
def reserved : List String := [
  "alignas", "alignof", "and", "and_eq", "asm", "auto", "bitand", "bitor", "bool", "break",
  "case", "catch", "char", "char8_t", "char16_t", "char32_t", "class", "co_await",
  "co_return", "co_yield", "compl", "concept", "const", "consteval", "constexpr", "constinit",
  "const_cast", "continue", "decltype", "default", "delete", "do", "double", "dynamic_cast",
  "else", "enum", "explicit", "export", "extern", "false", "float", "for", "friend", "goto",
  "if", "inline", "int", "long", "mutable", "namespace", "new", "noexcept", "not", "not_eq",
  "nullptr", "operator", "or", "or_eq", "private", "protected", "public", "register",
  "reinterpret_cast", "requires", "return", "short", "signed", "sizeof", "static",
  "static_assert", "static_cast", "struct", "switch", "template", "this", "thread_local",
  "throw", "true", "try", "typedef", "typeid", "typename", "union", "unsigned", "using",
  "virtual", "void", "volatile", "wchar_t", "while", "xor", "xor_eq"]

/-- The bytes of each reserved word. -/
def reservedBytes : List Bytes := reserved.map utf8

/-- The class of a word: reserved or free. -/
def Kind.ofWord (word : Bytes) : Kind :=
  if reservedBytes.contains word then .keyword else .identifier

end Quell
