import Quell.Bytes

/-!
# Text/Utf8 — reading bytes as characters, with what is ill-formed kept legible

One `step` reads the character at the front of a buffer, or says how long the ill-formed sequence
there is.  `legible` spells a whole buffer: characters as they are, ill-formed bytes as `\xNN`.
-/

namespace Quell.Utf8

/-- What stands at the front of a buffer. -/
inductive Step where
  /-- A well-formed character of the given width in bytes. -/
  | char (c : Char) (width : Nat)
  /-- A maximal ill-formed sequence of the given width. -/
  | broken (width : Nat)
  deriving DecidableEq

/-- How many continuation bytes follow a lead byte, and the range of the first of them: the ranges
exclude overlong forms, surrogates and code points past U+10FFFF. -/
def follow? (lead : UInt8) : Option (Nat × UInt8 × UInt8) :=
  if 0xC2 ≤ lead && lead ≤ 0xDF then some (1, 0x80, 0xBF)
  else if lead == 0xE0 then some (2, 0xA0, 0xBF)
  else if lead == 0xED then some (2, 0x80, 0x9F)
  else if 0xE1 ≤ lead && lead ≤ 0xEF then some (2, 0x80, 0xBF)
  else if lead == 0xF0 then some (3, 0x90, 0xBF)
  else if lead == 0xF4 then some (3, 0x80, 0x8F)
  else if 0xF1 ≤ lead && lead ≤ 0xF3 then some (3, 0x80, 0xBF)
  else none

/-- Reads the continuation bytes still due, the next one within `lo` and `hi`.  A byte out of range
and the end of the buffer both close the ill-formed sequence before them. -/
def readRest (code width : Nat) : (due : Nat) → (lo hi : UInt8) → Bytes → Step
  | 0, _, _, _ => .char (Char.ofNat code) width
  | _ + 1, _, _, [] => .broken width
  | due + 1, lo, hi, b :: rest =>
    if lo ≤ b && b ≤ hi then
      readRest (code * 64 + (b.toNat - 0x80)) (width + 1) due 0x80 0xBF rest
    else .broken width

/-- The payload of a lead byte with `due` continuation bytes. -/
def payload (lead : UInt8) (due : Nat) : Nat := lead.toNat % Nat.pow 2 (6 - due)

/-- **One step of decoding**: the front of a nonempty buffer. -/
def step (b : UInt8) (rest : Bytes) : Step :=
  if b < 0x80 then .char (Char.ofNat b.toNat) 1
  else match follow? b with
    | none => .broken 1
    | some (due, lo, hi) => readRest (payload b due) 1 due lo hi rest

/-- A hexadecimal digit in lower case. -/
def hexDigit (n : Nat) : Char :=
  if n < 10 then Char.ofNat (48 + n) else Char.ofNat (87 + n)

/-- An ill-formed byte as four ASCII characters. -/
def escape (b : UInt8) : List Char :=
  ['\\', 'x', hexDigit (b.toNat / 16), hexDigit (b.toNat % 16)]

/-- Spells a buffer whose first `skip` bytes have been spelled already. -/
def spellFrom : (skip : Nat) → Bytes → List Char
  | _, [] => []
  | skip + 1, _ :: rest => spellFrom skip rest
  | 0, b :: rest =>
    match step b rest with
    | .char c width => c :: spellFrom (width - 1) rest
    | .broken width =>
      ((b :: rest).take width).flatMap escape ++ spellFrom (width - 1) rest

/-- **The legible form of a buffer**: well-formed UTF-8 is itself, every byte of an ill-formed
sequence is written `\xNN`. -/
def legible (text : Bytes) : String := String.ofList (spellFrom 0 text)

end Quell.Utf8
