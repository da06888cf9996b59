import Quell.Region.Forest
import Quell.Token.Lexer

/-!
# Outline — the structure of one file

Tokens, bracket pairs and regions of a buffer, computed once; every analysis reads from here.
-/

namespace Quell

/-- The structure of one buffer. -/
structure Outline where
  source : Bytes
  /-- All tokens, comments and directives included. -/
  tokens : List Token
  /-- The code tokens; indices elsewhere count these. -/
  code : Code
  pairing : Pairing
  forest : Forest

namespace Outline

/-- The outline of a buffer that has been cut into tokens. -/
def ofTokens (source : Bytes) (tokens : List Token) : Except PairingFault Outline :=
  let code := Code.ofTokens tokens
  match Pairing.ofCode code with
  | .error fault => .error fault
  | .ok pairing => .ok ⟨source, tokens, code, pairing, Forest.ofCode code pairing⟩

/-- **The outline of a buffer.** -/
def ofSource (source : Bytes) : Except Fault Outline :=
  match tokenize source with
  | .error fault => .error fault.fault
  | .ok tokens =>
    match ofTokens source tokens with
    | .error fault => .error fault.fault
    | .ok outline => .ok outline

/-! ## Scopes -/

/-- First code token inside a region; the first of the file at file scope. -/
def floor (o : Outline) : Option Nat → Nat
  | none => 0
  | some id => ((o.forest.get? id).map fun r => r.opening + 1).getD 0

/-- The runs between `from` and `stop` that are left when regions are cut out. -/
def gapsFrom (stop : Nat) : (start : Nat) → List Region → List Slice
  | start, [] => if start < stop then [⟨start, stop⟩] else []
  | start, r :: rest =>
    if start < r.opening then ⟨start, r.opening⟩ :: gapsFrom stop (r.closing + 1) rest
    else gapsFrom stop (r.closing + 1) rest

/-- **The code tokens directly in a scope**, as runs: the regions inside are cut out, braces
included. -/
def direct (o : Outline) (scope : Option Nat) : List Slice :=
  let bounds := match scope with
    | none => Slice.mk 0 o.code.size
    | some id => ((o.forest.get? id).map Region.inner).getD ⟨0, 0⟩
  gapsFrom bounds.stop bounds.start (o.forest.childrenOf scope)

/-- The indices of the code tokens directly in a scope. -/
def directTokens (o : Outline) (scope : Option Nat) : List Nat :=
  (o.direct scope).flatMap (·.indices)

/-- An offset falls strictly inside a token, comments and directives included. -/
def splitsToken (o : Outline) (offset : Nat) : Bool :=
  (o.tokens.takeWhile (·.start < offset)).getLast?.any (offset < ·.stop)

/-! ## Regions by kind -/

/-- The function bodies with their heads, in order. -/
def functions (o : Outline) : List (Region × FunctionHead) :=
  o.forest.toList.filterMap fun r =>
    match r.kind with
    | .functionBody head => some (r, head)
    | _ => none

/-- The switch bodies with their conditions, in order. -/
def switches (o : Outline) : List (Region × Group) :=
  o.forest.toList.filterMap fun r =>
    match r.kind with
    | .switchBody condition => some (r, condition)
    | _ => none

/-- The `catch` blocks of the function whose body is the given region. -/
def handlersOf (o : Outline) (function : Nat) : List Region :=
  o.forest.toList.filter (·.kind == .handler function)

/-- A listing of all regions. -/
def describe (o : Outline) : String := o.forest.describe o.source

end Outline

end Quell
