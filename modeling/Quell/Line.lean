import Quell.Bytes

/-!
# Line — byte offsets, lines and indentation

A `LineTable` maps byte offsets to 1-based positions; offsets past the end count as the end.  The
other questions — how a line is indented, whether an offset starts or ends its line, which line
ending the buffer uses — are answered by the bytes around the offset, and look only at blanks.
-/

namespace Quell

/-- Where each line of a buffer starts. -/
structure LineTable where
  /-- Offsets of the line starts, increasing, `0` first. -/
  starts : List Nat
  /-- Length of the buffer. -/
  size : Nat
  deriving DecidableEq

/-- A 1-based line and column, both counted in bytes. -/
structure Position where
  line : Nat
  column : Nat
  deriving DecidableEq

/-- The offsets after each newline of a buffer that starts at `offset`. -/
def lineStartsFrom (offset : Nat) : Bytes → List Nat
  | [] => []
  | b :: rest =>
    if b == Byte.newline then (offset + 1) :: lineStartsFrom (offset + 1) rest
    else lineStartsFrom (offset + 1) rest

namespace LineTable

/-- The line table of a buffer. -/
def ofSource (source : Bytes) : LineTable := ⟨0 :: lineStartsFrom 0 source, source.length⟩

/-- Number of lines; a final newline opens one more. -/
def count (t : LineTable) : Nat := t.starts.length

/-- The line starts at or before an offset. -/
def upTo (t : LineTable) (offset : Nat) : List Nat := t.starts.takeWhile (· ≤ min offset t.size)

/-- Offset of the start of the line that holds an offset. -/
def lineStart (t : LineTable) (offset : Nat) : Nat := (t.upTo offset).getLastD 0

/-- **The position of an offset**; offsets past the end clamp. -/
def position (t : LineTable) (offset : Nat) : Position :=
  ⟨(t.upTo offset).length, min offset t.size - t.lineStart offset + 1⟩

end LineTable

namespace Line

/-- The bytes before an offset on its line, last byte first. -/
def before (source : Bytes) (offset : Nat) : Bytes :=
  (source.take offset).reverse.takeWhile (· != Byte.newline)

/-- The bytes after an offset on its line. -/
def after (source : Bytes) (offset : Nat) : Bytes :=
  (source.drop offset).takeWhile (· != Byte.newline)

/-- Offset of the start of the line that holds an offset, found from the offset backwards. -/
def start (source : Bytes) (offset : Nat) : Nat :=
  min offset source.length - (before source offset).length

/-- **The indentation of a line**: the blanks at its start. -/
def indent (source : Bytes) (offset : Nat) : Bytes :=
  (source.drop (start source offset)).takeWhile Byte.isBlank

/-- Only blanks stand before the offset on its line. -/
def starts (source : Bytes) (offset : Nat) : Bool := (before source offset).all Byte.isBlank

/-- Only blanks or carriage returns stand after the offset on its line. -/
def ends (source : Bytes) (offset : Nat) : Bool :=
  (after source offset).all fun b => Byte.isBlank b || b == Byte.carriage

/-- The two line endings. -/
inductive Ending where
  | lf
  | crlf
  deriving DecidableEq

/-- The text of a line ending. -/
def Ending.text : Ending → String
  | .lf => "\n"
  | .crlf => "\r\n"

/-- The line ending of a buffer is that of its first line. -/
def ending (source : Bytes) : Ending :=
  if (source.takeWhile (· != Byte.newline)).length < source.length
      && (source.takeWhile (· != Byte.newline)).getLast? == some Byte.carriage then .crlf
  else .lf

/-- The line number of an offset, by counting newlines. -/
def number (source : Bytes) (offset : Nat) : Nat := (source.take offset).count Byte.newline + 1

end Line

end Quell
