import Quell.Declaration.Type
import Quell.Pairing

/-!
# Declaration/Pieces — comma-separated lists, and the parts of one parameter

`pieces` cuts a run of tokens at its top-level commas.  `parameter` takes one piece of a parameter
list apart: the declared name, the tokens of the declaration, and the type.
-/

namespace Quell.Declaration

/-! ## Cutting at commas -/

/-- State of the cut: where the piece began, the bracket and template nesting, and whether its
default argument has begun. -/
structure Cut where
  start : Nat
  depth : Int := 0
  angle : Nat := 0
  inDefault : Bool := false
  deriving DecidableEq

/-- Cuts the tokens from index `i` up to `stop`.  With `angles`, template brackets nest too until
the default argument begins: `a < b` there does not swallow the next comma. -/
def piecesFrom (angles : Bool) (stop : Nat) : Cut → (i : Nat) → List Token → List Slice
  | c, _, [] => if c.start < stop then [⟨c.start, stop⟩] else []
  | c, i, t :: rest =>
    if t.opening?.isSome then piecesFrom angles stop { c with depth := c.depth + 1 } (i + 1) rest
    else if t.closing?.isSome then
      piecesFrom angles stop { c with depth := c.depth - 1 } (i + 1) rest
    else if c.depth ≠ 0 then piecesFrom angles stop c (i + 1) rest
    else if angles && !c.inDefault && t.isMark "<" then
      piecesFrom angles stop { c with angle := c.angle + 1 } (i + 1) rest
    else if 0 < c.angle && !c.inDefault && t.isMark ">" then
      piecesFrom angles stop { c with angle := c.angle - 1 } (i + 1) rest
    else if c.angle = 0 && t.isMark "=" then
      piecesFrom angles stop { c with inDefault := true } (i + 1) rest
    else if c.angle = 0 && t.isMark "," then
      ⟨c.start, i⟩ :: piecesFrom angles stop { start := i + 1 } (i + 1) rest
    else piecesFrom angles stop c (i + 1) rest

/-- **The pieces of a run between its top-level commas.** -/
def pieces (code : Code) (angles : Bool) (s : Slice) : List Slice :=
  piecesFrom angles s.stop { start := s.start } s.start (code.slice s)

/-! ## The parts of a parameter -/

/-- Index after the `[[...]]` attributes at `a`.  Each attribute is left once. -/
def skipAttributes (code : Code) (pairing : Pairing) (stop : Nat) : (fuel a : Nat) → Nat
  | 0, a => a
  | fuel + 1, a =>
    if a + 1 < stop && code.mark a "[" && code.mark (a + 1) "[" then
      match pairing.partner a with
      | some close => skipAttributes code pairing stop fuel (close + 1)
      | none => a
    else a

/-- Index of the `=` of a default argument: the first outside all brackets, template brackets
included; `stop` if there is none. -/
def defaultFrom (stop : Nat) : (depth : Int) → (i : Nat) → List Token → Nat
  | _, _, [] => stop
  | depth, i, t :: rest =>
    if t.isMarkIn ["(", "[", "\x7b", "<"] then defaultFrom stop (depth + 1) (i + 1) rest
    else if t.isMarkIn [")", "]", "\x7d", ">"] then defaultFrom stop (depth - 1) (i + 1) rest
    else if depth = 0 && t.isMark "=" then i
    else defaultFrom stop depth (i + 1) rest

/-- End of a declaration without the array bounds at its end. -/
def dropBounds (code : Code) (pairing : Pairing) (a : Nat) : (fuel e : Nat) → Nat
  | 0, e => e
  | fuel + 1, e =>
    if a < e && code.markBefore e "]" then
      match pairing.partner (e - 1) with
      | some opening => if a < opening then dropBounds code pairing a fuel opening else e
      | none => e
    else e

/-- One parameter taken apart. -/
structure Parts where
  /-- Code token of the declared name. -/
  name : Option Nat
  /-- The declaration without attributes and default argument. -/
  decl : Slice
  type : DeclaredType
  /-- The parameter is marked as possibly unused. -/
  maybeUnused : Bool
  deriving DecidableEq

/-- The declared name of `void (*cb)(int)` and `int (&a)[3]`, given where the group opens. -/
def groupName? (code : Code) (pairing : Pairing) (opening : Nat) : Option Nat :=
  (Slice.mk (opening + 1) ((pairing.partner opening).getD opening)).indices.reverse.find? fun i =>
    code.nameAt i && !code.mark (i + 1) "::"

/-- A mark among the tokens that silences the warning. -/
def marksUnused (tokens : List Token) : Bool :=
  tokens.any (·.spells "maybe_unused")
    || (tokens.any (·.spells "__attribute__") && tokens.any (·.spells "unused"))

/-- **One piece of a parameter list, taken apart.**  The name is the last token before array bounds
and default argument, if a type stands before it. -/
def parameter (code : Code) (pairing : Pairing) (s : Slice) : Parts :=
  let maybeUnused := marksUnused (code.slice s)
  let a := skipAttributes code pairing s.stop code.size s.start
  let stop := defaultFrom s.stop 0 a (code.slice ⟨a, s.stop⟩)
  if stop ≤ a then ⟨none, ⟨a, a⟩, typeOf code ⟨a, a⟩, maybeUnused⟩
  else
    let e := dropBounds code pairing a code.size stop
    let pointed := (Slice.mk a e).indices.find? fun i =>
      code.mark i "(" && code.has (i + 1) (·.isMarkIn ["*", "&", "^"])
    match pointed with
    | some opening => ⟨groupName? code pairing opening, ⟨a, stop⟩, .pointer, maybeUnused⟩
    | none =>
      let last := e - 1
      if code.nameAt last && 2 ≤ e - a && !code.markBefore last "::"
          && (code.slice ⟨a, last⟩).any bearsType then
        ⟨some last, ⟨a, stop⟩, typeOf code ⟨a, last⟩, maybeUnused⟩
      else ⟨none, ⟨a, stop⟩, typeOf code ⟨a, stop⟩, maybeUnused⟩

end Quell.Declaration
