import Quell.Declaration.Word
import Quell.Pairing
import Quell.Text.Segments

/-!
# Declaration/Head — the head of a function definition, read backwards from its body

Accepted are `name ( params ) trailer [try] {`, with constructor initializers between trailer and
body; the name may be an operator, qualified, or carry template arguments.  Outside a class an
unqualified name must follow a return type, which keeps macro calls like `TEST(a, b) {` out.
-/

namespace Quell

/-- The head of a function definition. -/
structure FunctionHead where
  /-- The name as written, with its qualification. -/
  name : String
  /-- The parameter list. -/
  params : Group
  /-- The body is a `try` block. -/
  isTry : Bool
  deriving DecidableEq

/-- **The qualifiers of the name**: `a::Foo::m` gives `a` and `Foo`, template arguments cut off. -/
def FunctionHead.qualifier (h : FunctionHead) : List String :=
  ((Text.segments h.name).map fun s => String.ofList (s.toList.takeWhile (· != '<'))).dropLast

namespace Declaration

/-! ## Between parameter list and body -/

/-- Keywords that may stand between parameter list and body. -/
def trailerWords : List String := ["const", "volatile", "noexcept", "mutable", "throw"]

/-- Keywords that may stand there with an argument. -/
def trailerCallWords : List String := ["noexcept", "throw", "alignas", "decltype"]

/-- A qualifier of a function. -/
def isTrailerWord (t : Token) : Bool :=
  t.isKeywordIn trailerWords || t.isMark "&"
    || (t.isName && (t.spells "override" || t.spells "final"))

/-- A token of a trailing return type. -/
def isReturnWord (t : Token) : Bool :=
  t.isName || isSpecifier t || t.isMarkIn ["::", "<", ">", "*", "&", ","]

/-- Index of the `:` before the constructor initializers `: a(x), b{y}` that end before `k`. -/
def initializerColon? (code : Code) (pairing : Pairing) : (fuel k : Nat) → Option Nat
  | 0, _ => none
  | fuel + 1, k =>
    if !code.hasBefore k (·.isMarkIn [")", "\x7d"]) then none
    else
      (pairing.partner (k - 1)).bind fun opening =>
        (if code.markBefore opening ">" then angleOpening? code (opening - 1)
          else some opening).bind fun n =>
        if !code.nameBefore n then none
        else
          let start := chainStart code 0 (n - 1)
          if code.markBefore start "," then initializerColon? code pairing fuel (start - 1)
          else if code.markBefore start ":" then some (start - 1)
          else none

/-- Where a trailing return type `-> T` ending before `stop` begins; `stop` if there is none. -/
def skipReturnType (code : Code) (stop : Nat) : Nat :=
  let k := code.runStart (stop - lookback) isReturnWord stop
  if k < stop && code.markBefore k "->" then k - 1 else stop

/-- The group closing before `j` is the argument of a specifier or annotation: where that starts. -/
def specifierStart? (code : Code) (pairing : Pairing) (j : Nat) : Option Nat :=
  if code.markBefore j ")" then
    match pairing.partner (j - 1) with
    | some opening =>
      if code.hasBefore opening fun t =>
          t.isKeywordIn trailerCallWords || t.spells "__attribute__" || t.spells "__declspec"
            || (isMacroLike t && code.markBefore (opening - 1) ")") then
        some (opening - 1)
      else none
    | none => none
  else if code.markBefore j "]" then
    match pairing.partner (j - 1) with
    | some opening =>
      if 0 < opening && code.mark opening "[" && code.mark (opening + 1) "[" then some opening
      else none
    | none => none
  else none

/-- Walks back from `j` over qualifiers, annotations and attributes. -/
def skipQualifiers (code : Code) (pairing : Pairing) : (fuel j : Nat) → Nat
  | 0, j => j
  | fuel + 1, j =>
    if code.hasBefore j isTrailerWord then skipQualifiers code pairing fuel (j - 1)
    else if code.hasBefore j isMacroLike && code.markBefore (j - 1) ")" then
      skipQualifiers code pairing fuel (j - 1)
    else match specifierStart? code pairing j with
      | some start => skipQualifiers code pairing fuel start
      | none => j

/-- End of the parameter list whose trailer ends before `stop`. -/
def skipTrailer (code : Code) (pairing : Pairing) (stop : Nat) : Nat :=
  skipQualifiers code pairing (code.size + 1) (skipReturnType code stop)

/-! ## The name before the parameter list -/

/-- Index of an `operator` keyword among the four tokens before `opening`. -/
def operator? (code : Code) (opening : Nat) : Option Nat :=
  ((List.range (min 4 opening)).map (opening - 1 - ·)).find? fun i =>
    code.has i (·.isKeyword "operator")

/-- Start of the unqualified name before `opening`: an operator, or an identifier with its template
arguments and its `~`. -/
def baseName? (code : Code) (opening : Nat) : Option Nat :=
  match operator? code opening with
  | some start => some start
  | none =>
    (if code.markBefore opening ">" then angleOpening? code (opening - 1)
      else some opening).bind fun n =>
    if !code.nameBefore n then none
    else if code.markBefore (n - 1) "~" then some (n - 2)
    else some (n - 1)

/-- One step out of the qualification that ends before `start`: `Foo ::` or `Foo<T> ::`. -/
def qualifierStart? (code : Code) (start : Nat) : Option Nat :=
  if 2 ≤ start && code.markBefore start "::" then
    if code.nameAt (start - 2) then some (start - 2)
    else if code.mark (start - 2) ">" then
      match angleOpening? code (start - 2) with
      | some lt => if code.nameBefore lt then some (lt - 1) else none
      | none => none
    else none
  else none

/-- Start of a qualified name, and whether anything qualifies it. -/
def qualifiedStart (code : Code) : (fuel start : Nat) → (qualified : Bool) → Nat × Bool
  | 0, start, qualified => (start, qualified)
  | fuel + 1, start, qualified =>
    match qualifierStart? code start with
    | some outer => qualifiedStart code fuel outer true
    | none => if code.markBefore start "::" then (start - 1, true) else (start, qualified)

/-- A token that a return type can end with. -/
def endsReturnType (t : Token) : Bool :=
  t.isName || (t.kind == .keyword && !t.spells "return" && !t.spells "else")
    || t.isMarkIn [">", "*", "&"]

/-- **The tokens of the name whose parameter list opens at an index.** -/
def declaratorName? (code : Code) (opening : Nat) (inClass : Bool) : Option Slice :=
  if opening = 0 then none
  else
    (baseName? code opening).bind fun base =>
      let (start, qualified) := qualifiedStart code (base + 1) base false
      if inClass || qualified || code.hasBefore start endsReturnType then some ⟨start, opening⟩
      else none

/-- The head whose trailer ends before `stop`. -/
def headBefore? (code : Code) (pairing : Pairing) (inClass isTry : Bool) (stop : Nat) :
    Option FunctionHead :=
  let j := skipTrailer code pairing stop
  if !code.markBefore j ")" then none
  else
    (pairing.partner (j - 1)).bind fun opening =>
      (declaratorName? code opening inClass).map fun name =>
        ⟨code.joined name, ⟨opening, j - 1⟩, isTry⟩

/-- **The head of the function whose body opens at `brace`**: with constructor initializers if that
reads as a head, else without. -/
def functionHead? (code : Code) (pairing : Pairing) (brace : Nat) (inClass : Bool) :
    Option FunctionHead :=
  let isTry := code.keywordBefore brace "try"
  let stop := if isTry then brace - 1 else brace
  match (initializerColon? code pairing (code.size + 1) stop).bind
      (headBefore? code pairing inClass isTry) with
  | some head => some head
  | none => headBefore? code pairing inClass isTry stop

end Declaration

end Quell
