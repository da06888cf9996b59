/-!
# Report/Json — JSON text, indented by two spaces

A rendering is the text of a value at a depth of nesting.  Arrays and objects put each member on a
line of its own; empty ones stay on one line.
-/

namespace Quell.Json

/-- The text of a value at a depth. -/
abbrev Rendering := (depth : Nat) → String

/-- The spaces before a line. -/
def margin (depth : Nat) : String := String.ofList (List.replicate (2 * depth) ' ')

/-- A hexadecimal digit in lower case. -/
def hexDigit (n : Nat) : Char := if n < 10 then Char.ofNat (48 + n) else Char.ofNat (87 + n)

/-- One character of a string: quotes, backslashes and control characters are escaped. -/
def escape (c : Char) : List Char :=
  if c == '"' then ['\\', '"']
  else if c == '\\' then ['\\', '\\']
  else if c == '\x08' then ['\\', 'b']
  else if c == '\t' then ['\\', 't']
  else if c == '\n' then ['\\', 'n']
  else if c == '\x0c' then ['\\', 'f']
  else if c == '\r' then ['\\', 'r']
  else if c.toNat < 32 then
    ['\\', 'u', '0', '0', hexDigit (c.toNat / 16), hexDigit (c.toNat % 16)]
  else [c]

/-- The text of a string in quotes. -/
def text (s : String) : String := String.ofList ('"' :: s.toList.flatMap escape ++ ['"'])

/-- A string. -/
def string (s : String) : Rendering := fun _ => text s

/-- A number. -/
def number (n : Nat) : Rendering := fun _ => toString n

/-- A truth value. -/
def boolean (b : Bool) : Rendering := fun _ => if b then "true" else "false"

/-- Members between brackets, each on a line of its own. -/
def enclosed (opening closing : String) (members : List Rendering) : Rendering := fun depth =>
  if members.isEmpty then opening ++ closing
  else
    opening ++ "\n"
      ++ ",\n".intercalate (members.map fun m => margin (depth + 1) ++ m (depth + 1))
      ++ "\n" ++ margin depth ++ closing

/-- An array. -/
def array (items : List Rendering) : Rendering := enclosed "[" "]" items

/-- An object; the fields stand as given. -/
def object (fields : List (String × Rendering)) : Rendering :=
  enclosed "\x7b" "\x7d"
    (fields.map fun (key, value) => fun depth => text key ++ ": " ++ value depth)

end Quell.Json
