import Quell.Token.Lexer

/-!
# Token/Stream — the lexer call by call

A `Cursor` is the lexer between two calls: where it stands in the buffer, whether only blanks stand
before it on its line, and whether its stream has ended.  A call gives a token, or it ends the
stream: with a fault, or with nothing where only blanks are left.  Once ended, the stream stays so.
-/

namespace Quell.Lexer

/-! ## Where a fault leaves the lexer -/

/-- How far the scanner of a quoted literal reads after the opening quote: up to the closing one, a
newline or the end of the buffer.  A backslash takes the byte after it along, also past the end. -/
def quotedReach (q : UInt8) : Bytes → Nat
  | [] => 0
  | Byte.backslash :: [] => 2
  | Byte.backslash :: _ :: rest => quotedReach q rest + 2
  | b :: rest => if b == Byte.newline || b == q then 0 else quotedReach q rest + 1

/-- How far from its first byte the lexer stands when a token fails.  An open comment leaves it on
that byte, a raw string on its opening quote, a quoted literal where the reading stopped. -/
def reach (b : UInt8) (rest : Bytes) : Nat :=
  if b == Byte.quote || b == Byte.tick then 1 + quotedReach b rest
  else if Byte.opensName b then
    let n := nameWidth rest
    match rest.drop n with
    | Byte.quote :: after =>
      if rawMarks.contains (b :: rest.take n) then n + 1 else n + 2 + quotedReach Byte.quote after
    | Byte.tick :: after => n + 2 + quotedReach Byte.tick after
    | _ => 0
  else 0

/-! ## Calls -/

/-- Where the lexer stands in a buffer. -/
structure Cursor where
  offset : Nat
  /-- Only blanks stand before it on its line. -/
  fresh : Bool
  ahead : Bytes
  /-- The stream has ended. -/
  done : Bool
  deriving DecidableEq

namespace Cursor

/-- The front of a buffer. -/
def ofSource (source : Bytes) : Cursor := ⟨0, true, source, false⟩

/-- Passes over blanks and takes a token; nothing at the end of the buffer. -/
def advance (c : Cursor) : Option (Except LexFault Token) × Cursor :=
  let (blank, newline) := gap c.ahead
  match c.ahead.drop blank with
  | [] => (none, { c with offset := c.offset + blank, fresh := c.fresh || newline, ahead := [] })
  | b :: rest =>
    match scan (c.fresh || newline) b rest with
    | .error slip =>
      (some (.error ⟨c.offset + blank + slip.ahead, slip.cause⟩),
        { c with
          offset := c.offset + blank + reach b rest
          fresh := false
          ahead := (b :: rest).drop (reach b rest) })
    | .ok ⟨kind, more⟩ =>
      (some (.ok ⟨kind, b :: rest.take more, c.offset + blank⟩),
        { c with offset := c.offset + blank + 1 + more, fresh := false, ahead := rest.drop more })

/-- **One call of the lexer**, and where it stands after that.  All but a token ends the stream. -/
def next (c : Cursor) : Option (Except LexFault Token) × Cursor :=
  if c.done then (none, c)
  else
    match c.advance with
    | (some (.ok t), c') => (some (.ok t), c')
    | (item, c') => (item, { c' with done := true })

/-- Where the lexer stands after a number of calls. -/
def after (c : Cursor) : (calls : Nat) → Cursor
  | 0 => c
  | calls + 1 => (c.after calls).next.2

end Cursor

/-- What the calls give, one after the other: the tokens, then the fault. -/
def Lexed.items (l : Lexed) : List (Except LexFault Token) :=
  l.tokens.map .ok ++ l.fault.toList.map .error

end Quell.Lexer
