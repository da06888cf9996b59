import Quell.Token
import Quell.Fault

/-!
# Token/Lexer — cutting a buffer into tokens

Between two tokens stand only blanks and line splices (`gap`).  At the first other byte one scanner
decides the class of the token and how many `more` bytes belong to it, so every token is nonempty by
construction and the lexer ends.  The scanners that must look back — a newline does not end a line
after a backslash — carry the bytes of the token seen so far, last byte first.
-/

namespace Quell

/-- The two kinds of quoted literal. -/
inductive Quoting where
  | string
  | character
  deriving DecidableEq

/-- Why a buffer cannot be cut into tokens. -/
inductive LexCause where
  /-- A block comment without its end. -/
  | openComment
  /-- A quoted literal without its closing quote. -/
  | openLiteral (q : Quoting)
  /-- A quoted literal that runs into the end of its line. -/
  | brokenLiteral (q : Quoting)
  /-- A raw string whose delimiter is too long or holds a forbidden byte. -/
  | badDelimiter
  /-- A raw string without its closing delimiter. -/
  | openRaw
  deriving DecidableEq

/-- The word for a kind of quoted literal. -/
def Quoting.word : Quoting → String
  | .string => "string"
  | .character => "character"

/-- The wording of each cause. -/
def LexCause.message : LexCause → String
  | .openComment => "unterminated block comment"
  | .openLiteral q => s!"unterminated {q.word} literal"
  | .brokenLiteral q => s!"newline in {q.word} literal"
  | .badDelimiter => "malformed raw string delimiter"
  | .openRaw => "unterminated raw string literal"

/-- A lexical failure at its byte offset. -/
structure LexFault where
  offset : Nat
  cause : LexCause
  deriving DecidableEq

/-- The reportable form. -/
def LexFault.fault (f : LexFault) : Fault := .lexical f.offset f.cause.message

namespace Lexer

/-! ## Between tokens -/

/-- Width of the blanks and line splices at the front of a buffer, and whether they hold a newline
outside a splice. -/
def gap : Bytes → Nat × Bool
  | [] => (0, false)
  | Byte.newline :: rest => ((gap rest).1 + 1, true)
  | Byte.backslash :: Byte.newline :: rest => let g := gap rest; (g.1 + 2, g.2)
  | Byte.backslash :: Byte.carriage :: Byte.newline :: rest => let g := gap rest; (g.1 + 3, g.2)
  | b :: rest => if Byte.isSpacing b then let g := gap rest; (g.1 + 1, g.2) else (0, false)

/-! ## Logical lines -/

/-- At a newline after the bytes `seen`: `none` if the line is spliced to the next one, otherwise
how many of the bytes seen belong to the line break. -/
def lineBreak : (seen : Bytes) → Option Nat
  | Byte.carriage :: Byte.backslash :: _ => none
  | Byte.carriage :: _ => some 1
  | Byte.backslash :: _ => none
  | _ => some 0

/-- Width of the token that began with `seen` and runs to the end of its logical line. -/
def lineWidth (seen : Bytes) : Bytes → Nat
  | [] => seen.length
  | b :: rest =>
    if b == Byte.newline then
      match lineBreak seen with
      | some back => seen.length - back
      | none => lineWidth (b :: seen) rest
    else lineWidth (b :: seen) rest

/-- Where inside a directive a byte stands. -/
inductive Within where
  | plain
  /-- In a block comment that opened at this offset of the directive. -/
  | comment (opened : Nat)
  /-- After an opening quote. -/
  | quoted (q : UInt8)
  deriving DecidableEq

/-- Width of a directive that began with `seen`.  Quotes may stay open (`#error don't`), a block
comment may span lines but must end; the failure is the offset of its opening. -/
def directiveWidth : Within → (seen : Bytes) → Bytes → Except Nat Nat
  | .comment opened, _, [] => .error opened
  | .plain, seen, [] | .quoted _, seen, [] => .ok seen.length
  | .plain, seen, b :: rest =>
    if b == Byte.newline then
      match lineBreak seen with
      | some back => .ok (seen.length - back)
      | none => directiveWidth .plain (b :: seen) rest
    else if b == Byte.slash then
      match rest with
      | Byte.star :: rest =>
        directiveWidth (.comment seen.length) (Byte.star :: b :: seen) rest
      | Byte.slash :: rest => .ok (lineWidth (Byte.slash :: b :: seen) rest)
      | rest => directiveWidth .plain (b :: seen) rest
    else if b == Byte.quote || b == Byte.tick then directiveWidth (.quoted b) (b :: seen) rest
    else directiveWidth .plain (b :: seen) rest
  | .comment opened, seen, b :: rest =>
    if b == Byte.star then
      match rest with
      | Byte.slash :: rest => directiveWidth .plain (Byte.slash :: b :: seen) rest
      | rest => directiveWidth (.comment opened) (b :: seen) rest
    else directiveWidth (.comment opened) (b :: seen) rest
  | .quoted q, seen, b :: rest =>
    if b == Byte.newline then
      match lineBreak seen with
      | some back => .ok (seen.length - back)
      | none => directiveWidth .plain (b :: seen) rest
    else if b == q then directiveWidth .plain (b :: seen) rest
    else if b == Byte.backslash then
      match rest with
      | [] => .ok (seen.length + 1)
      | c :: rest => directiveWidth (.quoted q) (c :: b :: seen) rest
    else directiveWidth (.quoted q) (b :: seen) rest

/-! ## Literals -/

/-- The kind of literal a quote opens. -/
def quoting (q : UInt8) : Quoting := if q == Byte.quote then .string else .character

/-- Width of a quoted literal after its opening quote, closing quote included.  A backslash takes
the byte after it along. -/
def quotedWidth (q : UInt8) : Bytes → Except LexCause Nat
  | [] => .error (.openLiteral (quoting q))
  | Byte.backslash :: [] => .error (.openLiteral (quoting q))
  | Byte.backslash :: _ :: rest => (quotedWidth q rest).map (· + 2)
  | b :: rest =>
    if b == Byte.newline then .error (.brokenLiteral (quoting q))
    else if b == q then .ok 1
    else (quotedWidth q rest).map (· + 1)

/-- Width of the run of identifier bytes at the front: a word's rest, or a literal's suffix. -/
def nameWidth (bytes : Bytes) : Nat := (bytes.takeWhile Byte.continuesName).length

/-- Longest delimiter a raw string may carry. -/
def maxDelimiter : Nat := 16

/-- The bytes a raw string's delimiter must not hold. -/
def forbiddenDelimiter (b : UInt8) : Bool :=
  b == Byte.space || b == 41 || b == Byte.backslash || b == Byte.tab || b == Byte.newline

/-- Width of a raw string after its opening quote, closing quote included. -/
def rawWidth (bytes : Bytes) : Except LexCause Nat :=
  match (bytes.take (maxDelimiter + 1)).findIdx? (· == Byte.paren) with
  | none => .error .badDelimiter
  | some n =>
    let delimiter := bytes.take n
    if delimiter.any forbiddenDelimiter then .error .badDelimiter
    else
      let closing := 41 :: delimiter ++ [Byte.quote]
      match Bytes.indexOf? closing (bytes.drop (n + 1)) with
      | some k => .ok (n + 1 + k + closing.length)
      | none => .error .openRaw

/-- An exponent letter, which takes a sign along. -/
def isExponent (b : UInt8) : Bool := b == 101 || b == 69 || b == 112 || b == 80

/-- Width of a number: letters, digits, underscores and dots, signed exponents, and single quotes
between digits. -/
def numberWidth : Bytes → Nat
  | [] => 0
  | [b] => if Byte.isAlphanumeric b || b == Byte.underscore || b == Byte.dot then 1 else 0
  | b :: c :: rest =>
    if isExponent b && (c == 43 || c == 45) then numberWidth rest + 2
    else if Byte.isAlphanumeric b || b == Byte.underscore || b == Byte.dot then
      numberWidth (c :: rest) + 1
    else if b == Byte.tick && Byte.isAlphanumeric c then numberWidth rest + 2
    else 0

/-! ## One token -/

/-- The class of a token and the number of its bytes after the first. -/
structure Extent where
  kind : Kind
  more : Nat
  deriving DecidableEq

/-- Why no token starts here, and how far from here the fault lies. -/
structure Slip where
  ahead : Nat
  cause : LexCause
  deriving DecidableEq

/-- The words that may stand before a quote. -/
def encodingMarks : List Bytes := ["L", "u", "U", "u8"].map utf8

/-- The words that open a raw string. -/
def rawMarks : List Bytes := ["R", "LR", "uR", "UR", "u8R"].map utf8

/-- A literal whose quote stands `ahead` bytes after its first byte: the quoted part, then a
suffix. -/
def literalExtent (width : Bytes → Except LexCause Nat) (ahead : Nat) (afterQuote : Bytes) :
    Except Slip Extent :=
  match width afterQuote with
  | .ok n => .ok ⟨.literal, ahead + n + nameWidth (afterQuote.drop n)⟩
  | .error cause => .error ⟨0, cause⟩

/-- A word, or the literal that a word opens. -/
def wordExtent (b : UInt8) (rest : Bytes) : Except Slip Extent :=
  let n := nameWidth rest
  let word := b :: rest.take n
  match rest.drop n with
  | Byte.quote :: after =>
    if rawMarks.contains word then literalExtent rawWidth (n + 1) after
    else if encodingMarks.contains word then literalExtent (quotedWidth Byte.quote) (n + 1) after
    else .ok ⟨Kind.ofWord word, n⟩
  | Byte.tick :: after =>
    if encodingMarks.contains word then literalExtent (quotedWidth Byte.tick) (n + 1) after
    else .ok ⟨Kind.ofWord word, n⟩
  | _ => .ok ⟨Kind.ofWord word, n⟩

/-- Punctuation: `...`, `::` and `->` are single tokens, all other marks are single bytes. -/
def punctuationExtent (b : UInt8) (rest : Bytes) : Extent :=
  if (utf8 "...").isPrefixOf (b :: rest) then ⟨.punctuation, 2⟩
  else if (utf8 "::").isPrefixOf (b :: rest) || (utf8 "->").isPrefixOf (b :: rest) then
    ⟨.punctuation, 1⟩
  else ⟨.punctuation, 0⟩

/-- A comment, if the bytes after a slash open one. -/
def commentExtent? : Bytes → Option (Except Slip Extent)
  | Byte.slash :: rest =>
    some (.ok ⟨.comment, lineWidth [Byte.slash, Byte.slash] rest - 1⟩)
  | Byte.star :: rest =>
    some <| match Bytes.indexOf? [Byte.star, Byte.slash] rest with
      | some n => .ok ⟨.comment, n + 3⟩
      | none => .error ⟨0, .openComment⟩
  | _ => none

/-- **One token**, at a byte that is no blank.  `fresh` says that only blanks stand before it on its
line: there a hash opens a directive. -/
def scan (fresh : Bool) (b : UInt8) (rest : Bytes) : Except Slip Extent :=
  if b == Byte.hash && fresh then
    match directiveWidth .plain [b] rest with
    | .ok width => .ok ⟨.directive, width - 1⟩
    | .error opened => .error ⟨opened, .openComment⟩
  else
    match (if b == Byte.slash then commentExtent? rest else none) with
    | some result => result
    | none =>
      if b == Byte.quote || b == Byte.tick then literalExtent (quotedWidth b) 0 rest
      else if Byte.isDigit b || (b == Byte.dot && rest.head?.any Byte.isDigit) then
        .ok ⟨.literal, numberWidth (b :: rest) - 1⟩
      else if Byte.opensName b then wordExtent b rest
      else .ok (punctuationExtent b rest)

/-! ## The whole buffer -/

/-- The tokens up to the end of the buffer or the first fault, whichever comes first. -/
structure Lexed where
  tokens : List Token
  fault : Option LexFault
  deriving DecidableEq

/-- Puts a token before the ones that follow it. -/
def Lexed.push (t : Token) (l : Lexed) : Lexed := { l with tokens := t :: l.tokens }

/-- Lexes a buffer that starts at byte `start` of the whole, `fresh` if only blanks stand before it
on its line.  Every token takes a byte, so the length of the buffer bounds their number. -/
def lexFrom : (fuel : Nat) → (start : Nat) → (fresh : Bool) → Bytes → Lexed
  | 0, _, _, _ => ⟨[], none⟩
  | fuel + 1, start, fresh, bytes =>
    let (blank, newline) := gap bytes
    match bytes.drop blank with
    | [] => ⟨[], none⟩
    | b :: rest =>
      match scan (fresh || newline) b rest with
      | .error slip => ⟨[], some ⟨start + blank + slip.ahead, slip.cause⟩⟩
      | .ok ⟨kind, more⟩ =>
        (lexFrom fuel (start + blank + 1 + more) false (rest.drop more)).push
          ⟨kind, b :: rest.take more, start + blank⟩

end Lexer

/-- **Lexing**: every token of a buffer before the first fault, and that fault. -/
def lex (source : Bytes) : Lexer.Lexed := Lexer.lexFrom source.length 0 true source

/-- All tokens of a buffer, or the first fault. -/
def tokenize (source : Bytes) : Except LexFault (List Token) :=
  match lex source with
  | ⟨tokens, none⟩ => .ok tokens
  | ⟨_, some fault⟩ => .error fault

end Quell
