import Quell.Code
import Quell.Fault

/-!
# Pairing — every bracket and its partner

One pass over the code tokens with a stack of open brackets.  The pass succeeds on the balanced
files only, and the table then pairs each opening bracket with the later closing bracket of its own
shape.
-/

namespace Quell

/-- The three shapes of bracket. -/
inductive Bracket where
  | round
  | square
  | curly
  deriving DecidableEq

/-- The shape a token opens. -/
def Token.opening? (t : Token) : Option Bracket :=
  if t.isMark "(" then some .round
  else if t.isMark "[" then some .square
  else if t.isMark "\x7b" then some .curly
  else none

/-- The shape a token closes. -/
def Token.closing? (t : Token) : Option Bracket :=
  if t.isMark ")" then some .round
  else if t.isMark "]" then some .square
  else if t.isMark "\x7d" then some .curly
  else none

/-- Why the brackets of a buffer cannot be paired. -/
inductive PairingFault where
  /-- A closing bracket where nothing is open. -/
  | unmatched (closer : Token)
  /-- A closing bracket of another shape than the bracket that is open. -/
  | mismatched (closer opener : Token)
  /-- The last bracket still open at the end. -/
  | unclosed (opener : Token)
  deriving DecidableEq

namespace PairingFault

/-- The byte offset of the bracket at fault. -/
def offset : PairingFault → Nat
  | unmatched closer => closer.start
  | mismatched closer _ => closer.start
  | unclosed opener => opener.start

/-- The wording of each cause. -/
def message : PairingFault → String
  | unmatched closer => s!"unmatched `{closer.name}`"
  | mismatched closer opener =>
    s!"`{closer.name}` does not match `{opener.name}` opened at byte {opener.start}"
  | unclosed opener => s!"unclosed `{opener.name}`"

/-- The reportable form. -/
def fault (f : PairingFault) : Fault := .structural f.offset f.message

end PairingFault

/-- The partner of each code token, if it is a bracket. -/
abbrev Pairing := Array (Option Nat)

namespace Pairing

/-- The partner of the token at an index. -/
def partner (p : Pairing) (i : Nat) : Option Nat := p[i]?.join

/-- Makes two tokens partners of each other. -/
def pair (p : Pairing) (i j : Nat) : Pairing :=
  (p.setIfInBounds i (some j)).setIfInBounds j (some i)

/-- The table in which nothing has a partner. -/
def unpaired (size : Nat) : Pairing := Array.replicate size none

/-- The table with the given partners. -/
def ofPairs (size : Nat) (pairs : List (Nat × Nat)) : Pairing :=
  pairs.foldl (fun p (i, j) => p.pair i j) (unpaired size)

/-- Pairs the brackets of the tokens from index `i` on; `pending` are the open ones, innermost
first. -/
def pairFrom : (i : Nat) → (pending : List (Nat × Token)) → Pairing → List Token →
    Except PairingFault Pairing
  | _, [], table, [] => .ok table
  | _, (_, opener) :: _, _, [] => .error (.unclosed opener)
  | i, pending, table, t :: rest =>
    if t.opening?.isSome then pairFrom (i + 1) ((i, t) :: pending) table rest
    else match t.closing? with
      | none => pairFrom (i + 1) pending table rest
      | some shape =>
        match pending with
        | [] => .error (.unmatched t)
        | (j, opener) :: pending =>
          if opener.opening? == some shape then pairFrom (i + 1) pending (table.pair j i) rest
          else .error (.mismatched t opener)

/-- **The pairing of a buffer's brackets**, or the first bracket that has no partner. -/
def ofCode (code : Code) : Except PairingFault Pairing :=
  pairFrom 0 [] (unpaired code.size) code.toList

end Pairing

end Quell
