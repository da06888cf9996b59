import Quell.Toml

/-!
# Toml/Scalar — strings, numbers, dates and times

Every reader takes what is left of the document and gives a value and the rest.  Numbers and moments
are read over the whole run of their characters.
-/

namespace Quell.Toml

/-! ## Characters -/

/-- Space or tab. -/
def isBlank (c : Char) : Bool := c == ' ' || c == '\t'

/-- A character of a comment or literal string: no control character except the tab. -/
def isPlain (c : Char) : Bool := c == '\t' || (' ' ≤ c && c != '\x7f')

/-- Drops blanks. -/
def skipBlanks (cs : List Char) : List Char := cs.dropWhile isBlank

/-- The value of a digit in a base up to sixteen. -/
def digit? (base : Nat) (c : Char) : Option Nat :=
  let value :=
    if '0' ≤ c && c ≤ '9' then c.toNat - 48
    else if 'a' ≤ c && c ≤ 'f' then c.toNat - 87
    else if 'A' ≤ c && c ≤ 'F' then c.toNat - 55
    else 16
  if value < base then some value else none

/-! ## Strings -/

/-- The value of exactly `n` hexadecimal digits. -/
def hexValue? : (n : Nat) → (value : Nat) → List Char → Option (Nat × List Char)
  | 0, value, cs => some (value, cs)
  | _ + 1, _, [] => none
  | n + 1, value, c :: cs => (digit? 16 c).bind fun d => hexValue? n (value * 16 + d) cs

/-- The character with a code point; surrogates have none. -/
def scalar? (code : Nat) : Option Char := if code.isValidChar then some (Char.ofNat code) else none

/-- The character after a backslash. -/
def escape? : List Char → Option (Char × List Char)
  | 'b' :: cs => some ('\x08', cs)
  | 't' :: cs => some ('\t', cs)
  | 'n' :: cs => some ('\n', cs)
  | 'f' :: cs => some ('\x0c', cs)
  | 'r' :: cs => some ('\r', cs)
  | '"' :: cs => some ('"', cs)
  | '\\' :: cs => some ('\\', cs)
  | 'u' :: cs => (hexValue? 4 0 cs).bind fun (code, cs) => (scalar? code).map (·, cs)
  | 'U' :: cs => (hexValue? 8 0 cs).bind fun (code, cs) => (scalar? code).map (·, cs)
  | _ => none

/-- A basic string after its opening quote. -/
def basic? : (fuel : Nat) → List Char → Option (List Char × List Char)
  | 0, _ => none
  | _, [] => none
  | fuel + 1, c :: cs =>
    if c == '"' then some ([], cs)
    else if c == '\\' then
      (escape? cs).bind fun (c, cs) => (basic? fuel cs).map fun (s, cs) => (c :: s, cs)
    else if isPlain c then (basic? fuel cs).map fun (s, cs) => (c :: s, cs)
    else none

/-- A literal string after its opening quote. -/
def literal? : List Char → Option (List Char × List Char)
  | [] => none
  | c :: cs =>
    if c == '\'' then some ([], cs)
    else if isPlain c then (literal? cs).map fun (s, cs) => (c :: s, cs)
    else none

/-- Drops blanks and line ends. -/
def skipSpace : List Char → List Char
  | '\r' :: '\n' :: cs => skipSpace cs
  | c :: cs => if isBlank c || c == '\n' then skipSpace cs else c :: cs
  | [] => []

/-- What follows a backslash that joins lines: blanks, a line end, and all space after it. -/
def joinLines? (cs : List Char) : Option (List Char) :=
  match skipBlanks cs with
  | '\n' :: cs => some (skipSpace cs)
  | '\r' :: '\n' :: cs => some (skipSpace cs)
  | _ => none

/-- The closing of a string of several lines: three quotes, and up to two more that belong to the
string. -/
def closing? (q : Char) (cs : List Char) : Option (List Char × List Char) :=
  let run := (cs.takeWhile (· == q)).length
  if run < 3 then none
  else
    let inside := min (run - 3) 2
    some (List.replicate inside q, cs.drop (inside + 3))

/-- A string of several lines after its opening; `escapes` says whether a backslash does. -/
def multiline? (q : Char) (escapes : Bool) : (fuel : Nat) → List Char →
    Option (List Char × List Char)
  | 0, _ => none
  | fuel + 1, cs =>
    match closing? q cs with
    | some result => some result
    | none =>
      match cs with
      | [] => none
      | '\n' :: cs => (multiline? q escapes fuel cs).map fun (s, cs) => ('\n' :: s, cs)
      | '\r' :: '\n' :: cs => (multiline? q escapes fuel cs).map fun (s, cs) => ('\n' :: s, cs)
      | c :: cs =>
        if escapes && c == '\\' then
          match joinLines? cs with
          | some cs => multiline? q escapes fuel cs
          | none =>
            (escape? cs).bind fun (c, cs) =>
              (multiline? q escapes fuel cs).map fun (s, cs) => (c :: s, cs)
        else if isPlain c then (multiline? q escapes fuel cs).map fun (s, cs) => (c :: s, cs)
        else none

/-- A line end right after the opening of a string of several lines does not count. -/
def dropLineEnd : List Char → List Char
  | '\n' :: cs => cs
  | '\r' :: '\n' :: cs => cs
  | cs => cs

/-- A string of any of the four forms. -/
def string? (cs : List Char) : Option (List Char × List Char) :=
  match cs with
  | '"' :: '"' :: '"' :: cs => multiline? '"' true (cs.length + 1) (dropLineEnd cs)
  | '\'' :: '\'' :: '\'' :: cs => multiline? '\'' false (cs.length + 1) (dropLineEnd cs)
  | '"' :: cs => basic? (cs.length + 1) cs
  | '\'' :: cs => literal? cs
  | _ => none

/-! ## Numbers -/

/-- The value of digits in which single underscores may stand between digits. -/
def digits? (base : Nat) : (value : Nat) → List Char → Option Nat
  | _, [] => none
  | value, [c] => (digit? base c).map (value * base + ·)
  | value, c :: '_' :: cs => (digit? base c).bind fun d => digits? base (value * base + d) cs
  | value, c :: cs => (digit? base c).bind fun d => digits? base (value * base + d) cs

/-- A sign and what follows it. -/
def signed : List Char → Bool × List Char
  | '-' :: cs => (true, cs)
  | '+' :: cs => (false, cs)
  | cs => (false, cs)

/-- Decimal digits without a leading zero. -/
def decimal? : List Char → Option Nat
  | ['0'] => some 0
  | '0' :: _ => none
  | cs => digits? 10 0 cs

/-- An integer within 64 bits. -/
def integer? (run : List Char) : Option Int :=
  match run with
  | '0' :: 'x' :: cs => (digits? 16 0 cs).bind (inRange ·)
  | '0' :: 'o' :: cs => (digits? 8 0 cs).bind (inRange ·)
  | '0' :: 'b' :: cs => (digits? 2 0 cs).bind (inRange ·)
  | run =>
    let (negative, cs) := signed run
    (decimal? cs).bind fun n => inRange (if negative then -(n : Int) else n)
where
  /-- The number, if 64 bits hold it. -/
  inRange (n : Int) : Option Int :=
    if -(Nat.pow 2 63 : Int) ≤ n && n < Nat.pow 2 63 then some n else none

/-- Splits a run at the first character that passes a test. -/
def splitAt? (test : Char → Bool) (cs : List Char) : Option (List Char × List Char) :=
  match cs.dropWhile (!test ·) with
  | [] => none
  | _ :: rest => some (cs.takeWhile (!test ·), rest)

/-- An exponent. -/
def exponent? (cs : List Char) : Option Int :=
  let (negative, cs) := signed cs
  (digits? 10 0 cs).map fun n => if negative then -(n : Int) else n

/-- The least number that double precision rounds to infinity. -/
def infinity : Nat := (Nat.pow 2 54 - 1) * Nat.pow 2 970

/-- The decimal `mantissa · 10^scale` is below the range of double precision's infinity. -/
def isFinite (mantissa : Nat) (scale : Int) : Bool :=
  if mantissa = 0 then true
  else if scale < 0 then
    -- a number of n digits is below 10^n
    (Nat.toDigits 10 mantissa).length ≤ scale.natAbs + 308
      || mantissa < infinity * Nat.pow 10 scale.natAbs
  else scale ≤ 310 && mantissa * Nat.pow 10 scale.toNat < infinity

/-- The run is a float: `inf`, `nan`, or a decimal with a fraction or an exponent, and not too large
to be one. -/
def isFloat (run : List Char) : Bool :=
  let (negative, cs) := signed run
  if cs == "inf".toList || cs == "nan".toList then true
  else
    let (body, power) := match splitAt? (fun c => c == 'e' || c == 'E') cs with
      | some (body, power) => (body, some power)
      | none => (cs, none)
    let (whole, fraction) := match splitAt? (· == '.') body with
      | some (whole, fraction) => (whole, some fraction)
      | none => (body, none)
    let scale := match power with
      | some power => exponent? power
      | none => some 0
    let fractionValue := match fraction with
      | some fraction => digits? 10 0 fraction
      | none => some 0
    let places := ((fraction.getD []).filter (· != '_')).length
    match decimal? whole, fractionValue, scale with
    | some whole, some fractionValue, some scale =>
      (power.isSome || fraction.isSome)
        && (negative || isFinite (whole * Nat.pow 10 places + fractionValue) (scale - places))
    | _, _, _ => false

/-! ## Dates and times -/

/-- The value of exactly `n` decimal digits. -/
def fixed? : (n : Nat) → (value : Nat) → List Char → Option (Nat × List Char)
  | 0, value, cs => some (value, cs)
  | _ + 1, _, [] => none
  | n + 1, value, c :: cs => (digit? 10 c).bind fun d => fixed? n (value * 10 + d) cs

/-- Exactly `n` decimal digits whose value lies between bounds. -/
def within? (n lo hi : Nat) (cs : List Char) : Option (Nat × List Char) :=
  (fixed? n 0 cs).filter fun (value, _) => lo ≤ value && value ≤ hi

/-- A certain character. -/
def char? (c : Char) : List Char → Option (List Char)
  | [] => none
  | d :: cs => if c == d then some cs else none

/-- The length of a month. -/
def daysIn (year month : Nat) : Nat :=
  if month = 2 then
    if year % 4 = 0 && (year % 100 ≠ 0 || year % 400 = 0) then 29 else 28
  else if month = 4 || month = 6 || month = 9 || month = 11 then 30
  else 31

/-- A date: `1979-05-27`. -/
def date? (cs : List Char) : Option (List Char) := do
  let (year, cs) ← fixed? 4 0 cs
  let cs ← char? '-' cs
  let (month, cs) ← within? 2 1 12 cs
  let cs ← char? '-' cs
  let (_, cs) ← within? 2 1 (daysIn year month) cs
  return cs

/-- A fraction of a second, if there is one. -/
def fraction (cs : List Char) : List Char :=
  match cs with
  | '.' :: c :: rest =>
    if (digit? 10 c).isSome then rest.dropWhile fun c => (digit? 10 c).isSome else cs
  | cs => cs

/-- A time: `07:32:00.5`. -/
def time? (cs : List Char) : Option (List Char) := do
  let (_, cs) ← within? 2 0 23 cs
  let cs ← char? ':' cs
  let (_, cs) ← within? 2 0 59 cs
  let cs ← char? ':' cs
  let (_, cs) ← within? 2 0 60 cs
  return fraction cs

/-- An offset from universal time, if there is one. -/
def zone (cs : List Char) : List Char :=
  match cs with
  | 'Z' :: rest | 'z' :: rest => rest
  | '+' :: rest | '-' :: rest =>
    (do
      let (_, rest) ← within? 2 0 23 rest
      let rest ← char? ':' rest
      let (_, rest) ← within? 2 0 59 rest
      return rest).getD cs
  | cs => cs

/-- A date with its time, a date, or a time. -/
def moment? (cs : List Char) : Option (List Char) :=
  match date? cs with
  | some rest =>
    match rest with
    | c :: after =>
      if c == 'T' || c == 't' || c == ' ' then
        match time? after with
        | some after => some (zone after)
        | none => some rest
      else some rest
    | [] => some []
  | none => time? cs

/-! ## Any scalar that is no string -/

/-- A character of a number. -/
def isNumeric (c : Char) : Bool := c.isAlphanum || c == '_' || c == '+' || c == '-' || c == '.'

/-- A truth value, moment or number, read over the whole run of its characters. -/
def scalarValue? (cs : List Char) : Option (Toml × List Char) :=
  match moment? cs with
  | some rest => some (.moment, rest)
  | none =>
    let run := cs.takeWhile isNumeric
    let rest := cs.dropWhile isNumeric
    if run == "true".toList then some (.boolean true, rest)
    else if run == "false".toList then some (.boolean false, rest)
    else match integer? run with
      | some n => some (.integer n, rest)
      | none => if isFloat run then some (.float, rest) else none

end Quell.Toml
